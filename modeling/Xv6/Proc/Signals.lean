import Xv6.Proc.Reaping

/-!
# Waking and killing

What `exit`, `wait` and `kill` do to the state, the channel and the killed flag of other
processes.

* `no_lost_wakeup` — nobody sleeps in `wait` beside a child that has exited.
* `kill_live_iff` — `kill` does what it says exactly if no free slot has the pid.
-/

namespace Xv6.Proc

open Lib Function

namespace Table

variable {t t' t'' : Table} {p q i j : Slot} {c : Option WaitChan}

/-! ## Waking -/

/-- Some sleepers have been woken; channels and flags are as they were. -/
structure Woken (t t' : Table) : Prop where
  /-- A state stays, or the sleeper becomes runnable. -/
  state : ∀ i, (t'.proc i).state = (t.proc i).state ∨
    (t.proc i).state = .SLEEPING ∧ (t'.proc i).state = .RUNNABLE
  /-- Channels stay. -/
  chan : ∀ i, (t'.proc i).chan = (t.proc i).chan
  /-- Flags stay. -/
  killed : ∀ i, (t'.proc i).killed = (t.proc i).killed

namespace Woken

theorem refl (t : Table) : Woken t t := ⟨fun _ => Or.inl rfl, fun _ => rfl, fun _ => rfl⟩

theorem trans (h : Woken t t') (h' : Woken t' t'') : Woken t t'' where
  state i := by
    rcases h'.state i with he | ⟨hs, hr⟩
    · rw [he]
      exact h.state i
    · rcases h.state i with he' | ⟨-, hr'⟩
      · exact .inr ⟨he' ▸ hs, hr⟩
      · rw [hr'] at hs
        cases hs
  chan i := (h'.chan i).trans (h.chan i)
  killed i := (h'.killed i).trans (h.killed i)

theorem state_iff (h : Woken t t') {st : Procstate} (hs : st ≠ .SLEEPING) (hr : st ≠ .RUNNABLE) :
    (t'.proc i).state = st ↔ (t.proc i).state = st := by
  rcases h.state i with he | ⟨hs', hr'⟩
  · rw [he]
  · rw [hs', hr']
    exact iff_of_false (Ne.symm hr) (Ne.symm hs)

theorem asleep (h : Woken t t') (hi : (t'.proc i).state = .SLEEPING) :
    (t.proc i).state = .SLEEPING := by
  rcases h.state i with he | ⟨-, hr⟩
  · exact he ▸ hi
  · rw [hr] at hi
    cases hi

end Woken

theorem woken_wakeup1 (c : Option WaitChan) (t : Table) : Woken t (wakeup1 c t) where
  state i := by
    simp only [wakeup1]
    split_ifs with h
    · exact .inr ⟨h.1, rfl⟩
    · exact .inl rfl
  chan i := by
    simp only [wakeup1]
    split_ifs <;> rfl
  killed i := by
    simp only [wakeup1]
    split_ifs <;> rfl

/-- Nobody sleeps on a channel that has been woken. -/
theorem not_asleep_wakeup1 (hi : ((wakeup1 c t).proc i).state = .SLEEPING) :
    ((wakeup1 c t).proc i).chan ≠ c := by
  simp only [wakeup1] at hi ⊢
  split_ifs at hi ⊢ with h
  exact fun hc => h ⟨hi, hc⟩

theorem woken_modify {f : ProcStruct → ProcStruct} (hs : (f (t.proc i)).state = (t.proc i).state)
    (hc : (f (t.proc i)).chan = (t.proc i).chan) (hk : (f (t.proc i)).killed = (t.proc i).killed) :
    Woken t (t.modify i f) := by
  have hproc : ∀ j, ((t.modify i f).proc j).state = (t.proc j).state ∧
      ((t.modify i f).proc j).chan = (t.proc j).chan ∧
      ((t.modify i f).proc j).killed = (t.proc j).killed := by
    intro j
    by_cases hj : j = i
    · subst hj
      have hself : (t.modify j f).proc j = f (t.proc j) := update_self ..
      rw [hself]
      exact ⟨hs, hc, hk⟩
    · have hother : (t.modify i f).proc j = t.proc j := update_of_ne hj ..
      rw [hother]
      exact ⟨rfl, rfl, rfl⟩
  exact ⟨fun j => Or.inl (hproc j).1, fun j => (hproc j).2.1, fun j => (hproc j).2.2⟩

theorem woken_abandon (p : Slot) (t : Table) (i : Slot) : Woken t (abandon p t i) := by
  have hmod : Woken t (t.modify i fun x => { x with parent := some INITPROC }) :=
    woken_modify rfl rfl rfl
  rw [abandon]
  split_ifs
  · exact hmod.trans (woken_wakeup1 _ _)
  · exact hmod
  · exact .refl t

theorem woken_foldl_abandon (p : Slot) (l : List Slot) (t : Table) :
    Woken t (l.foldl (abandon p) t) := by
  induction l generalizing t with
  | nil => exact .refl t
  | cons i l ih => exact (woken_abandon p t i).trans (ih _)

/-- A child that has exited is noticed by the loop, and `init` is woken. -/
theorem init_woken (l : List Slot) (hj : j ∈ l) (hp : (t.proc j).parent = some p)
    (hz : (t.proc j).state = .ZOMBIE) (hi : ((l.foldl (abandon p) t).proc i).state = .SLEEPING) :
    ((l.foldl (abandon p) t).proc i).chan ≠ some (.proc INITPROC) := by
  induction l generalizing t with
  | nil => cases hj
  | cons k l ih =>
    rw [List.foldl_cons] at hi ⊢
    have hwoken := woken_foldl_abandon p l (abandon p t k)
    by_cases hjk : j = k
    · -- `init` is woken here, and nobody goes to sleep after
      subst hjk
      have habandon : abandon p t j =
          wakeup1 (some (.proc INITPROC))
            (t.modify j fun x => { x with parent := some INITPROC }) := by
        rw [abandon, if_pos hp]
        exact if_pos hz
      rw [hwoken.chan i, habandon]
      exact not_asleep_wakeup1 (habandon ▸ hwoken.asleep hi)
    · refine ih ((List.mem_cons.1 hj).resolve_left hjk) ?_ ?_ hi
      · have hpar := congrFun (congrArg Tree.parent (tree_abandon p t k)) j
        change ((abandon p t k).proc j).parent = _ at hpar
        rw [hpar]
        simp only
        split_ifs
        · rw [update_of_ne hjk]
          exact hp
        · exact hp
      · exact ((woken_abandon p t k).state_iff (by decide) (by decide)).2 hz

/-! ## Nobody sleeps beside a child that has exited -/

/-- Whoever sleeps in `wait` has no child that has exited. -/
def Alert (P : Slot → ProcStruct) : Prop :=
  ∀ p, (P p).state = .SLEEPING → (P p).chan = some (.proc p) →
  ∀ i, (P i).parent = some p → (P i).state ≠ .ZOMBIE

section Alert

variable {P : Slot → ProcStruct} {x : ProcStruct}

/-- A write that neither puts its slot to sleep in `wait`, nor makes it a child that has
exited. -/
theorem Alert.update (h : Alert P)
    (hsleep : x.state = .SLEEPING → x.chan = some (.proc i) →
      (P i).state = .SLEEPING ∧ (P i).chan = some (.proc i))
    (hzombie : x.state = .ZOMBIE → (P i).state = .ZOMBIE ∧ x.parent = (P i).parent) :
    Alert (update P i x) := by
  intro q hq hc j hj hz
  have hq' : (P q).state = .SLEEPING ∧ (P q).chan = some (.proc q) := by
    by_cases hqi : q = i
    · subst hqi
      rw [update_self] at hq hc
      exact hsleep hq hc
    · rw [update_of_ne hqi] at hq hc
      exact ⟨hq, hc⟩
  have hj' : (P j).parent = some q ∧ (P j).state = .ZOMBIE := by
    by_cases hji : j = i
    · subst hji
      rw [update_self] at hj hz
      exact ⟨(hzombie hz).2 ▸ hj, (hzombie hz).1⟩
    · rw [update_of_ne hji] at hj hz
      exact ⟨hj, hz⟩
  exact h q hq'.1 hq'.2 j hj'.1 hj'.2

/-- A write that leaves its slot awake and not exited. -/
theorem Alert.awake (h : Alert P) (hsleep : x.state ≠ .SLEEPING) (hzombie : x.state ≠ .ZOMBIE) :
    Alert (Function.update P i x) :=
  h.update (fun hs => absurd hs hsleep) fun hz => absurd hz hzombie

/-- A process without children that have exited goes to sleep. -/
theorem Alert.asleep (h : Alert P) (hsleep : x.state = .SLEEPING)
    (hkids : ∀ j, (P j).parent = some i → (P j).state ≠ .ZOMBIE) :
      Alert (Function.update P i x) := by
  intro q hq hc j hj hz
  have hji : j ≠ i := by
    rintro rfl
    rw [update_self, hsleep] at hz
    cases hz
  rw [update_of_ne hji] at hj hz
  by_cases hqi : q = i
  · exact hkids j (hqi ▸ hj) hz
  · rw [update_of_ne hqi] at hq hc
    exact h q hq hc j hj hz

end Alert

theorem alert_wakeup1 (h : Alert t.proc) (c : Option WaitChan) : Alert (wakeup1 c t).proc := by
  intro q hq hc j hj hz
  have hw := woken_wakeup1 c t
  have hpar : t.tree.parent j = some q := by
    rw [← tree_wakeup1 c t]
    exact hj
  exact h q (hw.asleep hq) (hw.chan q ▸ hc) j hpar ((hw.state_iff (by decide) (by decide)).1 hz)

theorem alert_waitScan (h : Alert t.proc) (p : Slot) : Alert (waitScan p t).proc := by
  rw [waitScan]
  split
  · exact h.awake (by simp) (by simp)
  · rename_i hnone
    split_ifs
    · exact h
    · -- the loop has found no child that has exited
      refine h.asleep rfl fun j hj hz => ?_
      have hchild : zombieChild p t j = true := decide_eq_true ⟨hj, hz⟩
      rw [firstSlot_none hnone j] at hchild
      cases hchild

theorem alert_exit (h : Alert t.proc) (hs : t.tree.Sound) (hinit : p ≠ INITPROC) :
    Alert (exit p t).proc := by
  rw [exit]
  have hw₁ := woken_wakeup1 ((t.proc p).parent.map .proc) t
  have hasleep := fun i => not_asleep_wakeup1 (c := (t.proc p).parent.map .proc) (t := t) (i := i)
  have htree₁ := tree_wakeup1 ((t.proc p).parent.map .proc) t
  generalize wakeup1 ((t.proc p).parent.map .proc) t = u at *
  have hw₂ : Woken u (reparent p u) := woken_foldl_abandon p (List.finRange NPROC) u
  have hnotice : ∀ i j, (u.proc j).parent = some p → (u.proc j).state = .ZOMBIE →
      ((reparent p u).proc i).state = .SLEEPING →
      ((reparent p u).proc i).chan ≠ some (.proc INITPROC) := by
    intro i j
    rw [reparent]
    exact init_woken (List.finRange NPROC) (List.mem_finRange j)
  have htree₂ := tree_reparent hinit u
  rw [htree₁] at htree₂
  generalize reparent p u = v at *
  have hpar₁ : ∀ i, (u.proc i).parent = (t.proc i).parent := fun i =>
    congrFun (congrArg Tree.parent htree₁) i
  have hpar₂ : ∀ i, (v.proc i).parent =
      if (t.proc i).parent = some p then some INITPROC else (t.proc i).parent := fun i =>
    congrFun (congrArg Tree.parent htree₂) i
  have hpp : (t.proc p).parent ≠ some p := fun he => ((hs.slots p).parent p he).2 rfl
  change Alert (update v.proc p { v.proc p with state := .ZOMBIE })
  intro q hq hc j hj hz
  have hqp : q ≠ p := by
    rintro rfl
    rw [update_self] at hq
    cases hq
  rw [update_of_ne hqp] at hq hc
  -- `q` was asleep in `wait` before, and is not the parent that was woken
  have hqu := hw₂.asleep hq
  have hcu : (u.proc q).chan = some (.proc q) := hw₂.chan q ▸ hc
  have hcq : (t.proc q).chan = some (.proc q) := hw₁.chan q ▸ hcu
  have hparent : (t.proc p).parent ≠ some q := fun he => hasleep q hqu (by rw [hcu, he]; rfl)
  by_cases hjp : j = p
  · -- the process that exits: its parent has been woken
    subst hjp
    rw [update_self] at hj
    change (v.proc j).parent = some q at hj
    rw [hpar₂, if_neg hpp] at hj
    exact hparent hj
  · rw [update_of_ne hjp] at hj hz
    have hzu : (u.proc j).state = .ZOMBIE := (hw₂.state_iff (by decide) (by decide)).1 hz
    rw [hpar₂] at hj
    split_ifs at hj with hchild
    · -- a child that goes to `init`, which has been woken
      cases hj
      exact hnotice _ j ((hpar₁ j).trans hchild) hzu hq hc
    · exact h q (hw₁.asleep hqu) hcq j hj ((hw₁.state_iff (by decide) (by decide)).1 hzu)

theorem alert_step {a : TableAct} (h : Alert t.proc) (hs : t.tree.Sound)
    (hstep : tableStep t a = some t') : Alert t'.proc := by
  have hembryo : ∀ {p ph np}, t.pc p = .forking ph np → (t.proc np).state = .EMBRYO := fun hpc =>
    eq_embryo (hs.forks _ _ _ (congrArg Pc.fork hpc)).embryo
  cases moves_of_step hstep with
  | full p => exact h
  | alloc p np hrun hpc hnp => exact h.awake (by simp) (by simp)
  | allocStack p np ok hpc =>
    have he := hembryo hpc
    rw [allocStack]
    split_ifs
    · exact h.awake (by rw [he]; decide) (by rw [he]; decide)
    · exact h.awake (by simp) (by simp)
  | copySpace p np ok hpc =>
    have he := hembryo hpc
    rw [copySpace]
    split_ifs
    · exact h.awake (by rw [he]; decide) (by rw [he]; decide)
    · exact h.awake (by simp) (by simp)
  | adopt p np hpc =>
    have he := hembryo hpc
    exact h.awake (by rw [he]; decide) (by rw [he]; decide)
  | start p np hpc => exact h.awake (by simp) (by simp)
  | exit p hrun hpc hinit => exact alert_exit h hs hinit
  | wait p hrun hpc => exact alert_waitScan h p
  | kill p i pid hi =>
    refine h.update (fun hsl => ?_) fun hz => ?_
    · simp only at hsl
      split_ifs at hsl with hold
      exact absurd hsl hold
    · simp only at hz
      split_ifs at hz
      exact ⟨hz, rfl⟩
  | nobody p pid => exact h
  | sleep p c hrun hpc hc =>
    exact h.update (fun _ he => absurd (Option.some.inj he) hc) fun hz => by cases hz
  | wakeup c => exact alert_wakeup1 h (some c)
  | yield p hrun => exact h.awake (by simp) (by simp)
  | schedule p hrun =>
    have hrunning : Alert (t.modify p fun x => { x with state := .RUNNING }).proc :=
      h.awake (by simp) (by simp)
    have hchan : Alert ((t.modify p fun x => { x with state := .RUNNING }).modify p fun x =>
        { x with chan := none }).proc :=
      hrunning.update (fun _ he => by cases he) fun hz => ⟨hz, rfl⟩
    rw [schedule]
    split
    · exact alert_waitScan hchan p
    · exact hchan
    · exact hrunning

/-- **No lost wake-up between exit and wait.**  In every run, whoever sleeps on its own slot
has no child that has exited, its own or one it has been given. -/
theorem no_lost_wakeup (h : Reach tableStep anyStep bootTable t)
    (hp : (t.proc p).state = .SLEEPING) (hc : (t.proc p).chan = some (.proc p))
    (hi : (t.proc i).parent = some p) : (t.proc i).state ≠ .ZOMBIE := by
  have hinv : t.tree.Sound ∧ Alert t.proc := by
    refine h.invariant (I := fun t => t.tree.Sound ∧ Alert t.proc) ⟨sound_boot, fun p hp => ?_⟩ ?_
    · exact absurd hp (by revert p; decide)
    · rintro s a s' ⟨hs, halert⟩ - hstep
      refine ⟨?_, alert_step halert hs hstep⟩
      rcases tree_step hstep with he | he
      · exact he ▸ hs
      · exact hs.step he
  exact hinv.2 p hp hc i hi

/-- `init` forks a child and waits for it. -/
def waiting : List TableAct :=
  [.schedule INITPROC, .allocproc INITPROC, .allocStack INITPROC true, .copySpace INITPROC true,
    .adopt INITPROC, .start INITPROC, .wait INITPROC]

/-- `init` sleeps in `wait`, and its child has not exited. -/
theorem no_lost_wakeup_init : ∃ t, Reach tableStep anyStep bootTable t ∧
    (t.proc 0).state = .SLEEPING ∧ (t.proc 1).parent = some 0 ∧ (t.proc 1).state ≠ .ZOMBIE := by
  obtain ⟨t, ht⟩ := Option.isSome_iff_exists.1
    (by decide +kernel : (exec tableStep (fun _ _ => true) bootTable waiting).isSome = true)
  have hstate : (exec tableStep (fun _ _ => true) bootTable waiting).map
      (fun t => ((t.proc 0).state, (t.proc 0).chan, (t.proc 1).parent)) =
        some (.SLEEPING, some (.proc 0), some 0) := by decide +kernel
  have hreach : Reach tableStep anyStep bootTable t := reach_of_exec (fun _ _ _ => trivial) .init ht
  rw [ht, Option.map_some, Option.some.injEq, Prod.mk.injEq, Prod.mk.injEq] at hstate
  obtain ⟨hs, hc, hp⟩ := hstate
  exact ⟨t, hreach, hs, hp, no_lost_wakeup hreach hs hc hp⟩

/-! ## Killing -/

/-- What `kill` is to do: find the process with the pid, set its flag and wake it, or else
say that there is none. -/
def KillLaw (t : Table) (pid : ℤ) : Prop :=
  ((kill pid t).1 = 0 ↔ ∃ i, (t.proc i).state ≠ .UNUSED ∧ ((t.proc i).pid : ℤ) = pid) ∧
  (∀ i, (t.proc i).state ≠ .UNUSED → ((t.proc i).pid : ℤ) = pid → (kill pid t).2 = t.killSlot i) ∧
  ((∀ i, (t.proc i).state ≠ .UNUSED → ((t.proc i).pid : ℤ) ≠ pid) → kill pid t = (-1, t))

/-- No free slot has the pid. -/
def NotFree (t : Table) (pid : ℤ) : Prop :=
  ∀ i, ((t.proc i).pid : ℤ) = pid → (t.proc i).state ≠ .UNUSED

/-- `kill` finds a slot that has the pid, or there is none. -/
theorem kill_cases (t : Table) (pid : ℤ) :
    (∃ i, ((t.proc i).pid : ℤ) = pid ∧ kill pid t = (0, t.killSlot i)) ∨
      (∀ i, ((t.proc i).pid : ℤ) ≠ pid) ∧ kill pid t = (-1, t) := by
  rw [kill]
  split
  · rename_i i hi
    exact .inl ⟨i, of_decide_eq_true (firstSlot_some hi), rfl⟩
  · rename_i hnone
    exact .inr ⟨fun i => of_decide_eq_false (firstSlot_none hnone i), rfl⟩

theorem killLaw_of_notFree (hs : t.tree.Sound) {pid : ℤ} (h : NotFree t pid) : KillLaw t pid := by
  rcases kill_cases t pid with ⟨i, hi, hk⟩ | ⟨hnone, hk⟩
  · rw [KillLaw, hk]
    refine ⟨iff_of_true rfl ⟨i, h i hi, hi⟩, fun j hj hpid => ?_,
      fun hall => absurd hi (hall i (h i hi))⟩
    have hij : i = j := hs.numbered.inj i j (life_ne_unused (h i hi)) (life_ne_unused hj)
      (Int.ofNat_inj.1 (hi.trans hpid.symm))
    rw [hij]
  · rw [KillLaw, hk]
    refine ⟨iff_of_false (by norm_num) fun ⟨i, _, hi⟩ => hnone i hi,
      fun i _ hi => absurd hi (hnone i), fun _ => rfl⟩

theorem notFree_of_killLaw (hr : t.tree.Retired) {pid : ℤ} (h : KillLaw t pid) : NotFree t pid := by
  intro i hi hu
  rcases kill_cases t pid with ⟨j, -, hk⟩ | ⟨hnone, -⟩
  · obtain ⟨k, hk', hpid⟩ := h.1.1 (by rw [hk])
    exact hr.ne i k (congrArg Procstate.life hu) (life_ne_unused hk')
      (Int.ofNat_inj.1 (hi.trans hpid.symm))
  · exact hnone i hi

theorem retired_of_reach (h : Reach tableStep anyStep bootTable t) :
    t.tree.Sound ∧ t.tree.Retired := by
  refine h.invariant (I := fun t => t.tree.Sound ∧ t.tree.Retired) ⟨sound_boot, ?_⟩ ?_
  · have hunused : ∀ i, bootTable.tree.life i = .unused → bootTable.tree.pid i = 0 := by decide
    have hused : ∀ i, bootTable.tree.life i ≠ .unused → bootTable.tree.pid i = 1 := by decide
    refine ⟨by decide, fun i j hi hj => ?_⟩
    rw [hunused i hi, hused j hj]
    decide
  · rintro s a s' ⟨hs, hr⟩ - hstep
    rcases tree_step hstep with he | he
    · rw [he]
      exact ⟨hs, hr⟩
    · exact ⟨hs.step he, hr.step hs he⟩

/-- `kill` is given no pid of a free slot, nor of a child that has not started. -/
def Spares (t : Table) : TableAct → Prop
  | .kill _ pid => ∀ i, ((t.proc i).pid : ℤ) = pid →
      (t.proc i).state ≠ .UNUSED ∧ (t.proc i).state ≠ .EMBRYO
  | _ => True

/-- Free slots and children that have not started have no flag set. -/
def Clean (P : Slot → ProcStruct) : Prop :=
  ∀ i, (P i).state = .UNUSED ∨ (P i).state = .EMBRYO → (P i).killed = false

theorem Clean.update {P : Slot → ProcStruct} {x : ProcStruct} (h : Clean P)
    (hx : x.state = .UNUSED ∨ x.state = .EMBRYO → x.killed = false) : Clean (update P i x) := by
  intro j hj
  by_cases hji : j = i
  · subst hji
    rw [update_self] at hj ⊢
    exact hx hj
  · rw [update_of_ne hji] at hj ⊢
    exact h j hj

/-- A write that makes its slot a process. -/
theorem Clean.started {P : Slot → ProcStruct} {x : ProcStruct} (h : Clean P)
    (hunused : x.state ≠ .UNUSED) (hembryo : x.state ≠ .EMBRYO) : Clean (Function.update P i x) :=
  h.update fun hx => hx.elim (fun hu => absurd hu hunused) fun he => absurd he hembryo

theorem clean_woken (h : Clean t.proc) (hw : Woken t t') : Clean t'.proc := by
  intro i hi
  rw [hw.killed i]
  exact h i (hi.imp (hw.state_iff (by decide) (by decide)).1
    (hw.state_iff (by decide) (by decide)).1)

theorem clean_waitScan (h : Clean t.proc) (p : Slot) : Clean (waitScan p t).proc := by
  rw [waitScan]
  split
  · exact h.update fun _ => rfl
  · split_ifs
    · exact h
    · exact h.started (by simp) (by simp)

theorem clean_step {a : TableAct} (h : Clean t.proc) (hs : t.tree.Sound) (ha : Spares t a)
    (hstep : tableStep t a = some t') : Clean t'.proc := by
  have hembryo : ∀ {p ph np}, t.pc p = .forking ph np → (t.proc np).killed = false := fun hpc =>
    h _ (Or.inr (eq_embryo (hs.forks _ _ _ (congrArg Pc.fork hpc)).embryo))
  cases moves_of_step hstep with
  | full p => exact h
  | alloc p np hrun hpc hnp => exact h.update fun _ => h np (Or.inl hnp)
  | allocStack p np ok hpc =>
    rw [allocStack]
    split_ifs
    · exact h.update fun _ => hembryo hpc
    · exact h.update fun _ => hembryo hpc
  | copySpace p np ok hpc =>
    rw [copySpace]
    split_ifs
    · exact h.update fun _ => hembryo hpc
    · exact h.update fun _ => hembryo hpc
  | adopt p np hpc => exact h.update fun _ => hembryo hpc
  | start p np hpc => exact h.started (by simp) (by simp)
  | exit p hrun hpc hinit =>
    have hw : Woken t (reparent p (wakeup1 ((t.proc p).parent.map .proc) t)) :=
      (woken_wakeup1 _ t).trans (woken_foldl_abandon p (List.finRange NPROC) _)
    rw [exit]
    generalize reparent p (wakeup1 ((t.proc p).parent.map .proc) t) = v at hw
    exact (clean_woken h hw).started (by simp) (by simp)
  | wait p hrun hpc => exact clean_waitScan h p
  | kill p i pid hi =>
    obtain ⟨hunused, hembryo⟩ := ha i hi
    refine h.started ?_ ?_
    · dsimp only
      split_ifs
      · decide
      · exact hunused
    · dsimp only
      split_ifs
      · decide
      · exact hembryo
  | nobody p pid => exact h
  | sleep p c hrun hpc hc => exact h.started (by simp) (by simp)
  | wakeup c => exact clean_woken h (woken_wakeup1 (some c) t)
  | yield p hrun => exact h.started (by simp) (by simp)
  | schedule p hrun =>
    have hrunning : Clean (t.modify p fun x => { x with state := .RUNNING }).proc :=
      h.started (by simp) (by simp)
    have hchan : Clean ((t.modify p fun x => { x with state := .RUNNING }).modify p fun x =>
        { x with chan := none }).proc := hrunning.update (hrunning p)
    rw [schedule]
    split
    · exact clean_waitScan hchan p
    · exact hchan
    · exact hrunning

theorem clean_of_reach (h : Reach tableStep Spares bootTable t) :
    t.tree.Sound ∧ Clean t.proc := by
  refine h.invariant (I := fun t => t.tree.Sound ∧ Clean t.proc) ⟨sound_boot, fun i hi => ?_⟩ ?_
  · revert hi i
    decide
  · rintro s a s' ⟨hs, hc⟩ ha hstep
    refine ⟨?_, clean_step hc hs ha hstep⟩
    rcases tree_step hstep with he | he
    · exact he ▸ hs
    · exact hs.step he

/-- **kill and live processes.**  In every run and for every pid, `kill` does what it is to
do if and only if no free slot has the pid; and if no `kill` of the run has been given the
pid of a free slot or of a child that had not started, every child starts without the flag. -/
theorem kill_live_iff (h : Reach tableStep anyStep bootTable t) :
    (∀ pid, KillLaw t pid ↔ NotFree t pid) ∧
      (Reach tableStep Spares bootTable t → ∀ p t' np, t.pc p = .forking .adopted np →
        tableStep t (.start p) = some t' →
        (t'.proc np).state = .RUNNABLE ∧ (t'.proc np).killed = false) := by
  obtain ⟨hs, hr⟩ := retired_of_reach h
  refine ⟨fun pid => ⟨notFree_of_killLaw hr, killLaw_of_notFree hs⟩,
    fun hrun p t' np hpc hstep => ?_⟩
  obtain ⟨-, hclean⟩ := clean_of_reach hrun
  cases moves_of_step hstep with
  | start p np' hpc' =>
    obtain rfl : np' = np := by
      rw [hpc'] at hpc
      cases hpc
      rfl
    have hkilled : (t.proc np').killed = false :=
      hclean np' (Or.inr (eq_embryo (hs.forks _ _ _ (congrArg Pc.fork hpc)).embryo))
    have hproc : (start p np' t).proc np' = { t.proc np' with state := .RUNNABLE } :=
      update_self (β := fun _ => ProcStruct) np' _ t.proc
    rw [hproc]
    exact ⟨rfl, hkilled⟩

/-- `init` forks a child, kills it, and forks another up to its start. -/
def killing : List TableAct :=
  [.schedule INITPROC, .allocproc INITPROC, .allocStack INITPROC true, .copySpace INITPROC true,
    .adopt INITPROC, .start INITPROC, .kill INITPROC 2, .allocproc INITPROC,
    .allocStack INITPROC true, .copySpace INITPROC true, .adopt INITPROC]

/-- `Spares`, decided. -/
def spares (t : Table) : TableAct → Bool
  | .kill _ pid => decide (∀ i, ((t.proc i).pid : ℤ) = pid →
      (t.proc i).state ≠ .UNUSED ∧ (t.proc i).state ≠ .EMBRYO)
  | _ => true

theorem spares_of_spares (t : Table) (a : TableAct) (h : spares t a = true) : Spares t a := by
  cases a with
  | kill p pid =>
    have hall : ∀ i, ((t.proc i).pid : ℤ) = pid →
      (t.proc i).state ≠ .UNUSED ∧ (t.proc i).state ≠ .EMBRYO := of_decide_eq_true h
    exact hall
  | _ => trivial

/-- The first child has been killed, its pid is that of no free slot, and the second child
starts without the flag. -/
theorem kill_live_iff_two : ∃ t t', Reach tableStep Spares bootTable t ∧
    (t.proc 1).killed = true ∧ KillLaw t 2 ∧ tableStep t (.start 0) = some t' ∧
    (t'.proc 2).state = .RUNNABLE ∧ (t'.proc 2).killed = false := by
  obtain ⟨t, ht⟩ := Option.isSome_iff_exists.1
    (by decide +kernel : (exec tableStep spares bootTable killing).isSome = true)
  have hstate : (exec tableStep spares bootTable killing).map (fun t =>
      ((t.proc 1).killed, t.pc 0, (tableStep t (.start 0)).isSome,
        decide (∀ i, ((t.proc i).pid : ℤ) = 2 → (t.proc i).state ≠ .UNUSED))) =
      some (true, .forking .adopted 2, true, true) := by decide +kernel
  rw [ht, Option.map_some, Option.some.injEq, Prod.mk.injEq, Prod.mk.injEq, Prod.mk.injEq] at hstate
  obtain ⟨hkilled, hpc, hstart, hfree⟩ := hstate
  obtain ⟨t', ht'⟩ := Option.isSome_iff_exists.1 hstart
  have hreach : Reach tableStep Spares bootTable t := reach_of_exec spares_of_spares .init ht
  obtain ⟨hlaw, hchild⟩ := kill_live_iff (hreach.mono fun _ _ _ => trivial)
  have hnot : ∀ i, ((t.proc i).pid : ℤ) = 2 → (t.proc i).state ≠ .UNUSED := of_decide_eq_true hfree
  exact ⟨t, t', hreach, hkilled, (hlaw 2).2 hnot, ht', hchild hreach 0 t' 2 hpc ht'⟩

/-- `kill(0)` finds a free slot and succeeds; the next child starts out killed. -/
theorem killed_at_birth :
    (exec tableStep (fun _ _ => true) bootTable [.schedule 0]).map (fun t => (kill 0 t).1) =
      some 0 ∧
    (exec tableStep (fun _ _ => true) bootTable [.schedule 0]).map
      (fun t => decide (∃ i, (t.proc i).state ≠ .UNUSED ∧ (t.proc i).pid = 0)) = some false ∧
    (exec tableStep (fun _ _ => true) bootTable [.schedule 0, .kill 0 0, .allocproc 0,
      .allocStack 0 true,
      .copySpace 0 true, .adopt 0, .start 0]).map (fun t => ((t.proc 1).state, (t.proc 1).killed)) =
      some (.RUNNABLE, true) := by
  refine ⟨?_, ?_, ?_⟩ <;> decide +kernel

end Table

end Xv6.Proc
