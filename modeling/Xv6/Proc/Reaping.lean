import Xv6.Proc.Tree

/-!
# Processes are reaped

The process table follows the process tree: a step of the table leaves the tree alone or
changes it in one of the tree's ways.

* `Moves` — what a step of the table can be.
* `tree_step` — the table refines the tree.
* `process_tree` — pids differ, parents live, and who exits is returned once.
-/

namespace Xv6.Proc

open Lib Function List

/-- The use of a slot, by its state. -/
def Procstate.life : Procstate → Life
  | .UNUSED => .unused
  | .EMBRYO => .embryo
  | .SLEEPING => .active
  | .RUNNABLE => .active
  | .RUNNING => .active
  | .ZOMBIE => .zombie

/-- The fork a process is in, by where it is. -/
def Pc.fork : Pc → Option (Phase × Slot)
  | .forking ph np => some (ph, np)
  | _ => none

namespace Table

/-- The process tree of a table. -/
def tree (t : Table) : Tree where
  life i := (t.proc i).state.life
  pid i := (t.proc i).pid
  parent i := (t.proc i).parent
  kstack i := (t.proc i).kstack
  pgdir i := (t.proc i).pgdir
  fork p := (t.pc p).fork
  nextpid := t.nextpid
  log := t.log

variable {t t' : Table} {p np i j : Slot} {c : Option WaitChan}

/-! ## What a step can be -/

/-- The branches of `tableStep`. -/
inductive Moves (t : Table) : TableAct → Table → Prop
  | full (p : Slot) : Moves t (.allocproc p) t
  | alloc (p np : Slot) (hrun : (t.proc p).state = .RUNNING) (hpc : t.pc p = .user)
      (hnp : (t.proc np).state = .UNUSED) : Moves t (.allocproc p)
        (({ t with nextpid := t.nextpid + 1 }.modify np fun x =>
          { x with state := .EMBRYO, pid := t.nextpid }).goto p (.forking .taken np))
  | allocStack (p np : Slot) (ok : Bool) (hpc : t.pc p = .forking .taken np) :
      Moves t (.allocStack p ok) (allocStack p np ok t)
  | copySpace (p np : Slot) (ok : Bool) (hpc : t.pc p = .forking .stacked np) :
      Moves t (.copySpace p ok) (copySpace p np ok t)
  | adopt (p np : Slot) (hpc : t.pc p = .forking .copied np) : Moves t (.adopt p) (adopt p np t)
  | start (p np : Slot) (hpc : t.pc p = .forking .adopted np) : Moves t (.start p) (start p np t)
  | exit (p : Slot) (hrun : (t.proc p).state = .RUNNING) (hpc : t.pc p = .user)
      (hinit : p ≠ INITPROC) : Moves t (.exit p) (exit p t)
  | wait (p : Slot) (hrun : (t.proc p).state = .RUNNING) (hpc : t.pc p = .user) :
      Moves t (.wait p) (waitScan p t)
  | kill (p i : Slot) (pid : ℤ) (hi : ((t.proc i).pid : ℤ) = pid) : Moves t (.kill p pid)
    (t.killSlot i)
  | nobody (p : Slot) (pid : ℤ) : Moves t (.kill p pid) t
  | sleep (p : Slot) (c : WaitChan) (hrun : (t.proc p).state = .RUNNING) (hpc : t.pc p = .user)
      (hc : c ≠ .proc p) : Moves t (.sleep p c) (fallAsleep p c .sleeping t)
  | wakeup (c : WaitChan) : Moves t (.wakeup c) (wakeup1 (some c) t)
  | yield (p : Slot) (hrun : (t.proc p).state = .RUNNING) :
      Moves t (.yield p) (t.modify p fun x => { x with state := .RUNNABLE })
  | schedule (p : Slot) (hrun : (t.proc p).state = .RUNNABLE) : Moves t (.schedule p) (schedule p t)

theorem firstSlot_some {f : Slot → Bool} (h : firstSlot f = some i) : f i = true :=
  find?_some h

theorem firstSlot_none {f : Slot → Bool} (h : firstSlot f = none) (i : Slot) : f i = false := by
  have := find?_eq_none.1 h i (mem_finRange i)
  simpa using this

theorem moves_of_step {a : TableAct} (h : tableStep t a = some t') : Moves t a t' := by
  cases a with
  | allocproc p =>
    rw [tableStep] at h
    split at h
    · rename_i hrun hpc
      rw [allocproc] at h
      split at h
      · cases h
        exact .full p
      · rename_i np hnp
        split_ifs at h
        cases h
        exact .alloc p np hrun hpc (of_decide_eq_true (firstSlot_some hnp))
    · cases h
  | allocStack p ok =>
    rw [tableStep] at h
    split at h
    · rename_i np hpc
      cases h
      exact .allocStack p np ok hpc
    · cases h
  | copySpace p ok =>
    rw [tableStep] at h
    split at h
    · rename_i np hpc
      cases h
      exact .copySpace p np ok hpc
    · cases h
  | adopt p =>
    rw [tableStep] at h
    split at h
    · rename_i np hpc
      cases h
      exact .adopt p np hpc
    · cases h
  | start p =>
    rw [tableStep] at h
    split at h
    · rename_i np hpc
      cases h
      exact .start p np hpc
    · cases h
  | exit p =>
    rw [tableStep] at h
    split at h
    · rename_i hrun hpc
      split_ifs at h with hinit
      cases h
      exact .exit p hrun hpc hinit
    · cases h
  | wait p =>
    rw [tableStep] at h
    split at h
    · rename_i hrun hpc
      cases h
      exact .wait p hrun hpc
    · cases h
  | kill p pid =>
    rw [tableStep] at h
    split at h
    · rw [Option.some.injEq, kill] at h
      split at h
      · rename_i i hi
        exact h ▸ .kill p i pid (of_decide_eq_true (firstSlot_some hi))
      · exact h ▸ .nobody p pid
    · cases h
  | sleep p c =>
    rw [tableStep] at h
    split at h
    · rename_i hrun hpc
      split_ifs at h with hc
      cases h
      exact .sleep p c hrun hpc hc
    · cases h
  | wakeup c =>
    cases h
    exact .wakeup c
  | yield p =>
    rw [tableStep] at h
    split at h
    · rename_i hrun hpc
      cases h
      exact .yield p hrun
    · cases h
  | schedule p =>
    rw [tableStep] at h
    split at h
    · rename_i hrun
      cases h
      exact .schedule p hrun
    · cases h

/-! ## The table follows the tree -/

/-- A write to a slot, on the tree. -/
theorem tree_modify (t : Table) (i : Slot) (f : ProcStruct → ProcStruct) : (t.modify i f).tree =
    { t.tree with
      life := update t.tree.life i (f (t.proc i)).state.life
      pid := update t.tree.pid i (f (t.proc i)).pid
      parent := update t.tree.parent i (f (t.proc i)).parent
      kstack := update t.tree.kstack i (f (t.proc i)).kstack
      pgdir := update t.tree.pgdir i (f (t.proc i)).pgdir } := by
  refine Tree.ext ?_ ?_ ?_ ?_ ?_ rfl rfl rfl
  · exact funext fun j => apply_update (fun _ (x : ProcStruct) => x.state.life) t.proc i _ j
  · exact funext fun j => apply_update (fun _ (x : ProcStruct) => x.pid) t.proc i _ j
  · exact funext fun j => apply_update (fun _ (x : ProcStruct) => x.parent) t.proc i _ j
  · exact funext fun j => apply_update (fun _ (x : ProcStruct) => x.kstack) t.proc i _ j
  · exact funext fun j => apply_update (fun _ (x : ProcStruct) => x.pgdir) t.proc i _ j

theorem tree_goto (t : Table) (p : Slot) (k : Pc) :
    (t.goto p k).tree = { t.tree with fork := update t.tree.fork p k.fork } :=
  Tree.ext rfl rfl rfl rfl rfl
    (funext fun j => apply_update (fun _ (x : Pc) => x.fork) t.pc p k j) rfl rfl

@[simp] theorem update_life (t : Table) (i : Slot) :
    update t.tree.life i (t.proc i).state.life = t.tree.life := update_eq_self i _

@[simp] theorem update_pid (t : Table) (i : Slot) :
    update t.tree.pid i (t.proc i).pid = t.tree.pid :=
  update_eq_self i _

@[simp] theorem update_parent (t : Table) (i : Slot) :
    update t.tree.parent i (t.proc i).parent = t.tree.parent := update_eq_self i _

@[simp] theorem update_kstack (t : Table) (i : Slot) :
    update t.tree.kstack i (t.proc i).kstack = t.tree.kstack := update_eq_self i _

@[simp] theorem update_pgdir (t : Table) (i : Slot) :
    update t.tree.pgdir i (t.proc i).pgdir = t.tree.pgdir := update_eq_self i _

/-- A write that changes none of what the tree sees. -/
theorem tree_modify_self {f : ProcStruct → ProcStruct}
    (h : (f (t.proc i)).state.life = (t.proc i).state.life ∧ (f (t.proc i)).pid = (t.proc i).pid ∧
      (f (t.proc i)).parent = (t.proc i).parent ∧ (f (t.proc i)).kstack = (t.proc i).kstack ∧
      (f (t.proc i)).pgdir = (t.proc i).pgdir) : (t.modify i f).tree = t.tree := by
  rw [tree_modify, h.1, h.2.1, h.2.2.1, h.2.2.2.1, h.2.2.2.2, update_life, update_pid,
    update_parent, update_kstack, update_pgdir]

/-- A move that neither begins nor ends a fork. -/
theorem tree_goto_self {k : Pc} (h : (t.pc p).fork = none) (hk : k.fork = none) :
    (t.goto p k).tree = t.tree := by
  rw [tree_goto, hk, ← h]
  exact Tree.ext rfl rfl rfl rfl rfl (update_eq_self p t.tree.fork) rfl rfl

@[simp] theorem tree_wakeup1 (c : Option WaitChan) (t : Table) : (wakeup1 c t).tree = t.tree := by
  have hproc : ∀ i, ((wakeup1 c t).proc i).state.life = (t.proc i).state.life ∧
      ((wakeup1 c t).proc i).pid = (t.proc i).pid ∧ ((wakeup1 c t).proc i).parent =
        (t.proc i).parent ∧
      ((wakeup1 c t).proc i).kstack = (t.proc i).kstack ∧
      ((wakeup1 c t).proc i).pgdir = (t.proc i).pgdir := by
    intro i
    simp only [wakeup1]
    split_ifs with h
    · exact ⟨by rw [h.1]; rfl, rfl, rfl, rfl, rfl⟩
    · exact ⟨rfl, rfl, rfl, rfl, rfl⟩
  exact Tree.ext (funext fun i => (hproc i).1) (funext fun i => (hproc i).2.1)
    (funext fun i => (hproc i).2.2.1) (funext fun i => (hproc i).2.2.2.1)
    (funext fun i => (hproc i).2.2.2.2) rfl rfl rfl

theorem tree_fallAsleep {c : WaitChan} {k : Pc} (hpc : (t.pc p).fork = none)
    (hrun : (t.proc p).state.life = .active) (hk : k.fork = none) :
      (fallAsleep p c k t).tree = t.tree := by
  set u := t.modify p fun x => { x with chan := some c, state := .SLEEPING }
  have hsleep : u.tree = t.tree := tree_modify_self ⟨hrun.symm, rfl, rfl, rfl, rfl⟩
  have hgoto : (u.goto p k).tree = u.tree := tree_goto_self hpc hk
  exact hgoto.trans hsleep

theorem tree_abandon (p : Slot) (t : Table) (i : Slot) : (abandon p t i).tree = { t.tree with
    parent := if t.tree.parent i = some p then update t.tree.parent i (some INITPROC)
      else t.tree.parent } := by
  have hmod : (t.modify i fun x => { x with parent := some INITPROC }).tree =
      { t.tree with parent := update t.tree.parent i (some INITPROC) } := by
    rw [tree_modify]
    simp only [update_life, update_pid, update_kstack, update_pgdir]
  rw [abandon]
  split_ifs with hp hz hc hc
  · rw [tree_wakeup1, hmod]
  · exact absurd hp hc
  · exact hmod
  · exact absurd hp hc
  · exact absurd ‹_› hp
  · rfl

/-- The children of a process have become children of `init`. -/
theorem tree_reparent (hp : p ≠ INITPROC) (t : Table) : (reparent p t).tree = { t.tree with
    parent := fun i => if t.tree.parent i = some p then some INITPROC else t.tree.parent i } := by
  have hfold : ∀ (l : List Slot) (t : Table), (l.foldl (abandon p) t).tree = { t.tree with
      parent := fun i => if i ∈ l ∧ t.tree.parent i = some p then some INITPROC
        else t.tree.parent i } := by
    intro l
    induction l with
    | nil =>
      intro t
      simp
    | cons j l ih =>
      intro t
      rw [foldl_cons, ih, tree_abandon]
      refine Tree.ext rfl rfl (funext fun i => ?_) rfl rfl rfl rfl rfl
      simp only [mem_cons]
      by_cases hj : t.tree.parent j = some p
      · rw [if_pos hj]
        by_cases hij : i = j
        · subst hij
          have hne : ¬ some INITPROC = some p := fun he => hp (Option.some.inj he).symm
          rw [update_self, if_neg fun h => hne h.2, if_pos ⟨Or.inl rfl, hj⟩]
        · rw [update_of_ne hij]
          simp only [hij, false_or]
      · rw [if_neg hj]
        by_cases hij : i = j
        · subst hij
          rw [if_neg fun h => hj h.2, if_neg fun h => hj h.2]
        · simp only [hij, false_or]
  rw [reparent, hfold]
  simp only [mem_finRange, true_and]

/-- `wait` leaves the tree alone or reaps a child. -/
theorem tree_waitScan (p : Slot) (hpc : (t.pc p).fork = none) (hrun : (t.proc p).state.life =
    .active) :
    (waitScan p t).tree = t.tree ∨ t.tree.Step (waitScan p t).tree := by
  rw [waitScan]
  split
  · rename_i i hi
    obtain ⟨hparent, hz⟩ := of_decide_eq_true (firstSlot_some hi)
    refine .inr ?_
    rw [tree_goto_self (t := reap p i t) (k := .user) hpc rfl, reap, tree_modify]
    have hlife : t.tree.life i = .zombie := congrArg Procstate.life hz
    have hstep := Tree.Step.reap (T := t.tree) p i hlife hparent
    have hdir : update t.tree.pgdir i (t.proc i).pgdir = t.tree.pgdir := update_pgdir t i
    convert hstep using 1
    exact Tree.ext rfl rfl rfl rfl hdir rfl rfl rfl
  · split_ifs
    · exact .inl (tree_goto_self hpc rfl)
    · exact .inl (tree_fallAsleep hpc hrun rfl)

/-- `exit` gives the children to `init` and leaves a zombie. -/
theorem tree_exit (hrun : (t.proc p).state = .RUNNING) (hpc : t.pc p = .user)
    (hinit : p ≠ INITPROC) :
    t.tree.Step (exit p t).tree := by
  have htree := tree_reparent hinit (wakeup1 ((t.proc p).parent.map .proc) t)
  rw [tree_wakeup1] at htree
  rw [exit]
  generalize reparent p (wakeup1 ((t.proc p).parent.map .proc) t) = u at htree
  rw [tree_modify]
  convert Tree.Step.exit (T := t.tree) p (congrArg Procstate.life hrun) (congrArg Pc.fork hpc)
    hinit using 1
  have hlife : update u.tree.life p Life.zombie = update t.tree.life p Life.zombie := by rw [htree]
  have hpid : u.tree.pid = t.tree.pid := by rw [htree]
  have hparent : u.tree.parent = fun i =>
    if t.tree.parent i = some p then some INITPROC else t.tree.parent i := by rw [htree]
  have hkstack : u.tree.kstack = t.tree.kstack := by rw [htree]
  have hpgdir : u.tree.pgdir = t.tree.pgdir := by rw [htree]
  have hfork : u.tree.fork = t.tree.fork := by rw [htree]
  have hnext : u.tree.nextpid = t.tree.nextpid := by rw [htree]
  have hlog : u.tree.log = t.tree.log := by rw [htree]
  refine Tree.ext hlife ((update_pid u p).trans hpid)
    ((update_parent u p).trans hparent) ((update_kstack u p).trans hkstack)
    ((update_pgdir u p).trans hpgdir) hfork hnext ?_
  exact congrArg (fun l : Log => l.exited (t.proc p).pid (t.proc p).parent) hlog

/-- A process that is scheduled goes on where it slept; only `wait` then looks at the tree. -/
theorem tree_schedule (hrun : (t.proc p).state = .RUNNABLE) :
    (schedule p t).tree = t.tree ∨ t.tree.Step (schedule p t).tree := by
  have hrun' : (t.modify p fun x => { x with state := .RUNNING }).tree = t.tree :=
    tree_modify_self ⟨(congrArg Procstate.life hrun).symm, rfl, rfl, rfl, rfl⟩
  set u := t.modify p fun x => { x with state := .RUNNING } with hu
  have hchan : (u.modify p fun x => { x with chan := none }).tree = t.tree :=
    (tree_modify_self ⟨rfl, rfl, rfl, rfl, rfl⟩).trans hrun'
  rw [schedule]
  cases hpc : t.pc p with
  | waiting =>
    change (waitScan p (u.modify p fun x => { x with chan := none })).tree = _ ∨
      t.tree.Step (waitScan p (u.modify p fun x => { x with chan := none })).tree
    rw [← hchan]
    refine tree_waitScan p (congrArg Pc.fork hpc) ?_
    have hlife := congrFun (congrArg Tree.life hchan) p
    exact hlife.trans (congrArg Procstate.life hrun)
  | sleeping =>
    refine .inl ?_
    rw [← hchan]
    have hnone : (t.pc p).fork = none := congrArg Pc.fork hpc
    exact tree_goto_self hnone rfl
  | user => exact .inl hrun'
  | forking ph np => exact .inl hrun'

/-- **The table refines the tree.**  A step leaves the tree alone, or changes it in one of
the tree's own ways. -/
theorem tree_step {a : TableAct} (h : tableStep t a = some t') :
    t'.tree = t.tree ∨ t.tree.Step t'.tree := by
  cases moves_of_step h with
  | full p => exact .inl rfl
  | alloc p np hrun hpc hnp =>
    refine .inr ?_
    rw [tree_goto, tree_modify]
    have hstep := Tree.Step.alloc (T := t.tree) p np (congrArg Procstate.life hrun)
      (congrArg Pc.fork hpc) (congrArg Procstate.life hnp)
    convert hstep using 1
    exact Tree.ext rfl rfl (update_parent t np) (update_kstack t np) (update_pgdir t np) rfl rfl rfl
  | allocStack p np ok hpc =>
    have hf : t.tree.fork p = some (.taken, np) := congrArg Pc.fork hpc
    refine .inr ?_
    rw [allocStack]
    cases ok with
    | true =>
      rw [if_pos rfl, tree_goto, tree_modify]
      convert Tree.Step.stack (T := t.tree) p np hf using 1
      exact Tree.ext (update_life t np) (update_pid t np) (update_parent t np) rfl
        (update_pgdir t np) rfl rfl rfl
    | false =>
      rw [if_neg Bool.false_ne_true, tree_goto, tree_modify]
      convert Tree.Step.drop (T := t.tree) p np hf using 1
      exact Tree.ext rfl (update_pid t np) (update_parent t np) (update_kstack t np)
        (update_pgdir t np) rfl rfl rfl
  | copySpace p np ok hpc =>
    have hf : t.tree.fork p = some (.stacked, np) := congrArg Pc.fork hpc
    refine .inr ?_
    rw [copySpace]
    cases ok with
    | true =>
      rw [if_pos rfl, tree_goto, tree_modify]
      convert Tree.Step.copy (T := t.tree) p np hf using 1
      exact Tree.ext (update_life t np) (update_pid t np) (update_parent t np) (update_kstack t np)
        rfl rfl rfl rfl
    | false =>
      rw [if_neg Bool.false_ne_true, tree_goto, tree_modify]
      convert Tree.Step.undo (T := t.tree) p np hf using 1
      exact Tree.ext rfl (update_pid t np) (update_parent t np) rfl (update_pgdir t np) rfl rfl rfl
  | adopt p np hpc =>
    refine .inr ?_
    rw [adopt, tree_goto, tree_modify]
    convert Tree.Step.adopt (T := t.tree) p np (congrArg Pc.fork hpc) using 1
    exact Tree.ext (update_life t np) (update_pid t np) rfl (update_kstack t np) (update_pgdir t np)
      rfl rfl rfl
  | start p np hpc =>
    refine .inr ?_
    rw [start, tree_goto, tree_modify]
    convert Tree.Step.start (T := t.tree) p np (congrArg Pc.fork hpc) using 1
    exact Tree.ext rfl (update_pid t np) (update_parent t np) (update_kstack t np)
      (update_pgdir t np) rfl rfl rfl
  | exit p hrun hpc hinit => exact .inr (tree_exit hrun hpc hinit)
  | wait p hrun hpc => exact tree_waitScan p (congrArg Pc.fork hpc) (congrArg Procstate.life hrun)
  | kill p i pid hi =>
    refine .inl (tree_modify_self ⟨?_, rfl, rfl, rfl, rfl⟩)
    simp only
    split_ifs with hs
    · rw [hs]
      rfl
    · rfl
  | nobody p pid => exact .inl rfl
  | sleep p c hrun hpc hc =>
    refine .inl ?_
    exact tree_fallAsleep (congrArg Pc.fork hpc) (congrArg Procstate.life hrun) rfl
  | wakeup c => exact .inl (tree_wakeup1 (some c) t)
  | yield p hrun => exact .inl (tree_modify_self ⟨(congrArg Procstate.life hrun).symm, rfl, rfl,
    rfl, rfl⟩)
  | schedule p hrun => exact tree_schedule hrun

/-! ## The tree of a run -/

theorem sound_boot : bootTable.tree.Sound where
  numbered := by
    have hused : ∀ i, bootTable.tree.life i ≠ .unused → i = INITPROC := by decide
    refine ⟨fun i j hi hj _ => (hused i hi).trans (hused j hj).symm, fun i hi => ?_, fun i hi => ?_⟩
    · rw [hused i hi]
      decide
    · rw [hused i hi]
      decide
  slots i := by
    have hparent : bootTable.tree.parent i = none := by
      revert i
      decide
    have hinit :
      bootTable.tree.life i = .active ∨ bootTable.tree.life i = .zombie → i = INITPROC := by
      revert i
      decide
    refine ⟨fun _ => hparent, fun q hq => ?_, fun hl hne => absurd (hinit hl) hne, fun hl => ?_,
      fun hl => ?_⟩
    · cases hparent.symm.trans hq
    · rw [hinit hl]
      rfl
    · rw [hinit hl]
      rfl
  forks p ph np hf := by cases hf
  fork_inj p q ph ph' np hf := by cases hf
  init := rfl
  init_parent := rfl
  next_pos := by decide

theorem logged_boot : bootTable.tree.Logged where
  exits_nodup := nodup_nil
  reaps_nodup := nodup_nil
  stacks_nodup := nodup_nil
  exits_lt e he := by cases he
  stacks_lt d hd := by cases hd
  exited e he := by cases he
  zombie i hi := absurd hi (by revert i; decide)
  reaped r hr := by cases hr
  unreaped i _ hd := by cases hd
  unexited i _ hd := by cases hd
  unfreed i _ hd := by cases hd
  stack_of_reap d hd := by cases hd
  tables := rfl

/-- In every run the tree is in order and the log complete. -/
theorem tree_of_reach (h : Reach tableStep anyStep bootTable t) : t.tree.Sound ∧ t.tree.Logged := by
  refine h.invariant (I := fun t => t.tree.Sound ∧ t.tree.Logged) ⟨sound_boot, logged_boot⟩ ?_
  rintro s a s' ⟨hs, hl⟩ - hstep
  rcases tree_step hstep with he | he
  · rw [he]
    exact ⟨hs, hl⟩
  · exact ⟨hs.step he, hl.step hs he⟩

theorem life_ne_unused {st : Procstate} (h : st ≠ .UNUSED) : st.life ≠ .unused := by
  cases st <;> first | exact absurd rfl h | (intro h'; cases h')

theorem eq_zombie {st : Procstate} (h : st.life = .zombie) : st = .ZOMBIE := by
  cases st <;> first | rfl | cases h

theorem eq_embryo {st : Procstate} (h : st.life = .embryo) : st = .EMBRYO := by
  cases st <;> first | rfl | cases h

/-- What has become of a process that has exited: it waits for its parent of that time or
for `init`, with its memory; or one call of `wait` by one of these has returned it and has
freed its kernel stack and its page table, once. -/
def Settled (t : Table) (e : Exit) : Prop :=
  ((∃ i q, (t.proc i).state = .ZOMBIE ∧ (t.proc i).pid = e.pid ∧ (t.proc i).parent = some q ∧
      (e.parent = some q ∨ q = INITPROC)) ∧
    e.pid ∉ t.log.reaps.map Reap.pid ∧ e.pid ∉ t.log.freedStacks ∧ e.pid ∉ t.log.freedTables) ∨
  ((∃ r ∈ t.log.reaps, r.pid = e.pid ∧ (e.parent = some r.caller ∨ r.caller = INITPROC)) ∧
    (t.log.reaps.map Reap.pid).count e.pid = 1 ∧ t.log.freedStacks.count e.pid = 1 ∧
    t.log.freedTables.count e.pid = 1)

theorem settled (hs : t.tree.Sound) (hl : t.tree.Logged) {e : Exit} (he : e ∈ t.log.exits) :
    Settled t e := by
  rcases hl.exited e he with ⟨i, hi, hpid⟩ | hd
  · refine .inl ⟨?_, ?_⟩
    · obtain ⟨q, hq⟩ : ∃ q, t.tree.parent i = some q := by
        refine Option.ne_none_iff_exists'.1 ((hs.slots i).has_parent (Or.inr hi) ?_)
        rintro rfl
        cases hi.symm.trans hs.init
      obtain ⟨e', he', hpe, hpar⟩ := hl.zombie i hi
      have hee : e' = e := inj_on_of_nodup_map hl.exits_nodup he' he (hpe.trans hpid)
      subst hee
      refine ⟨i, q, eq_zombie hi, hpid, hq, ?_⟩
      rw [hq] at hpar
      exact hpar.imp Eq.symm Option.some.inj
    · have hne : t.tree.life i ≠ .unused := by rw [hi]; decide
      have hreap : e.pid ∉ t.log.reaps.map Reap.pid := hpid ▸ hl.unreaped i hne
      exact ⟨hreap, hpid ▸ hl.unfreed i hne, fun hd => hreap (hl.tables ▸ hd)⟩
  · refine .inr ⟨?_, count_eq_one_of_mem hl.reaps_nodup hd,
      count_eq_one_of_mem hl.stacks_nodup (hl.stack_of_reap _ hd), ?_⟩
    · obtain ⟨r, hr, hre⟩ := mem_map.1 hd
      obtain ⟨e', he', hpe, hpar⟩ := hl.reaped r hr
      have hee : e' = e := inj_on_of_nodup_map hl.exits_nodup he' he (hpe.trans hre)
      exact ⟨r, hr, hre, hee ▸ hpar⟩
    · have htab : t.log.freedTables = t.log.reaps.map Reap.pid := hl.tables
      rw [htab]
      exact count_eq_one_of_mem hl.reaps_nodup hd

/-- `wait` returns a child if one has exited. -/
theorem waitScan_reaps (h : zombieChild p t i = true) :
    ∃ j, zombieChild p t j = true ∧
      (waitScan p t).log.reaps = t.log.reaps ++ [⟨(t.proc j).pid, p⟩] := by
  rw [waitScan]
  split
  · rename_i j hj
    exact ⟨j, firstSlot_some hj, rfl⟩
  · rename_i hnone
    rw [firstSlot_none hnone i] at h
    cases h

/-- **Process tree and reaping.**  In every run: processes have different pids; a slot with
a parent is in use, and the parent is neither free nor has it exited; a slot becomes
runnable only if it was active before or by the last step of the `fork` that `allocproc`
has given it to; nobody exits twice, and who has exited is settled; whom `wait` has
returned has exited; and `wait` returns a child whenever one has exited. -/
theorem process_tree (h : Reach tableStep anyStep bootTable t) :
    (∀ i j, (t.proc i).state ≠ .UNUSED → (t.proc j).state ≠ .UNUSED →
      (t.proc i).pid = (t.proc j).pid → i = j) ∧
    (∀ i q, (t.proc i).parent = some q →
      (t.proc i).state ≠ .UNUSED ∧ (t.proc q).state ≠ .UNUSED ∧ (t.proc q).state ≠ .ZOMBIE) ∧
    (∀ a t', tableStep t a = some t' → ∀ i,
      ((t'.proc i).state = .RUNNABLE → (t.proc i).state ≠ .UNUSED ∧ (t.proc i).state ≠ .ZOMBIE ∧
        ((t.proc i).state = .EMBRYO → ∃ p, t.pc p = .forking .adopted i)) ∧
      ((t'.proc i).state = .EMBRYO → (t.proc i).state = .EMBRYO ∨
        (t.proc i).state = .UNUSED ∧ ∃ p, (t'.pc p).fork = some (.taken, i))) ∧
    (∀ e ∈ t.log.exits, (t.log.exits.map Exit.pid).count e.pid = 1 ∧ Settled t e) ∧
    (∀ r ∈ t.log.reaps, r.pid ∈ t.log.exits.map Exit.pid) ∧
    ∀ p i, (t.proc i).parent = some p → (t.proc i).state = .ZOMBIE → ∃ j,
      (t.proc j).parent = some p ∧ (t.proc j).state = .ZOMBIE ∧
        (waitScan p t).log.reaps = t.log.reaps ++ [⟨(t.proc j).pid, p⟩] := by
  obtain ⟨hs, hl⟩ := tree_of_reach h
  refine ⟨fun i j hi hj => hs.numbered.inj i j (life_ne_unused hi) (life_ne_unused hj),
    fun i q hq => ?_,
    fun a t' hstep i => ⟨fun hi => ?_, fun hi => ?_⟩, fun e he => ⟨?_, settled hs hl he⟩,
      fun r hr => ?_, fun p i hp hz => ?_⟩
  · have hactive := ((hs.slots i).parent q hq).1
    refine ⟨fun hu => ?_, fun hu => ?_, fun hu => ?_⟩
    · cases ((hs.slots i).unused (congrArg Procstate.life hu)).symm.trans hq
    · cases hactive.symm.trans (congrArg Procstate.life hu)
    · cases hactive.symm.trans (congrArg Procstate.life hu)
  · have hlife : t'.tree.life i = .active := congrArg Procstate.life hi
    have hcases : t.tree.life i = .active ∨ ∃ p, t.tree.fork p = some (.adopted, i) := by
      rcases tree_step hstep with he | he
      · exact .inl (he ▸ hlife)
      · exact he.active hlife
    rcases hcases with hold | ⟨p, hp⟩
    · refine ⟨fun hu => ?_, fun hu => ?_, fun hu => ?_⟩ <;>
        cases hold.symm.trans (congrArg Procstate.life hu)
    · have hold := (hs.forks p _ i hp).embryo
      refine ⟨fun hu => ?_, fun hu => ?_, fun _ => ⟨p, ?_⟩⟩
      · cases hold.symm.trans (congrArg Procstate.life hu)
      · cases hold.symm.trans (congrArg Procstate.life hu)
      · change (t.pc p).fork = _ at hp
        cases hpc : t.pc p <;> rw [hpc] at hp <;> cases hp
        rfl
  · have hlife : t'.tree.life i = .embryo := congrArg Procstate.life hi
    rcases tree_step hstep with he | he
    · have hold : t.tree.life i = .embryo := he ▸ hlife
      exact .inl (eq_embryo hold)
    · refine (he.embryo hlife).imp eq_embryo fun ⟨hu, p, _, hp⟩ => ⟨?_, p, hp⟩
      by_contra hne
      exact life_ne_unused hne hu
  · exact count_eq_one_of_mem hl.exits_nodup (mem_map_of_mem he)
  · obtain ⟨e, he, hpe, -⟩ := hl.reaped r hr
    exact mem_map.2 ⟨e, he, hpe⟩
  · obtain ⟨j, hj, hreaps⟩ := waitScan_reaps (p := p) (i := i) (decide_eq_true ⟨hp, hz⟩)
    exact ⟨j, (of_decide_eq_true hj).1, (of_decide_eq_true hj).2, hreaps⟩

/-- `init` forks a child, which exits and is returned. -/
def oneChild (np : Slot) : List TableAct :=
  [.schedule INITPROC, .allocproc INITPROC, .allocStack INITPROC true, .copySpace INITPROC true,
    .adopt INITPROC, .start INITPROC, .schedule np, .exit np, .wait INITPROC]

/-- The child has exited and is settled. -/
theorem process_tree_oneChild :
    ∃ t, Reach tableStep anyStep bootTable t ∧ ∃ e ∈ t.log.exits, e.pid = 2 ∧ Settled t e := by
  obtain ⟨t, ht⟩ := Option.isSome_iff_exists.1
    (by decide +kernel : (exec tableStep (fun _ _ => true) bootTable (oneChild 1)).isSome = true)
  have hlog : (exec tableStep (fun _ _ => true) bootTable (oneChild 1)).map
      (fun t => t.log.exits.map Exit.pid) = some [2] := by decide +kernel
  have hreach : Reach tableStep anyStep bootTable t := reach_of_exec (fun _ _ _ => trivial) .init ht
  rw [ht, Option.map_some, Option.some.injEq] at hlog
  obtain ⟨e, he, hpid⟩ := mem_map.1 (hlog ▸ mem_singleton_self 2)
  exact ⟨t, hreach, e, he, hpid, ((process_tree hreach).2.2.2.1 e he).2⟩

end Table

end Xv6.Proc
