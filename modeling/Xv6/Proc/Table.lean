import Xv6.Param
import Xv6.Lib.Machine

/-!
# The process table

`allocproc`, `fork`, `exit`, `wait`, `sleep_proc`, `wakeup`, `kill`, `yield_proc` and the
scheduler of `crates/proc/src/proc.rs`, as far as they touch the process table.  A section
under `ptable.lock` is one step; so is every write that `allocproc` and `fork` make to the
new slot without the lock.  A process that sleeps gives the lock to the scheduler, and goes
on in the section in which the scheduler picks it again.

A log beside the table records who has exited, which call of `wait` returned whom, and what
was freed.  A kernel stack and a page table are named after the pid of the process they
were allocated for.
-/

namespace Xv6.Proc

open Lib

/-- `enum Procstate`. -/
inductive Procstate where
  | UNUSED
  | EMBRYO
  | SLEEPING
  | RUNNABLE
  | RUNNING
  | ZOMBIE
  deriving DecidableEq

/-- A slot of the process table, which is also its address. -/
abbrev Slot : Type := Fin NPROC

/-- `INITPROC`: `userinit` takes the first slot. -/
def INITPROC : Slot := 0

/-- The addresses processes sleep on. -/
inductive WaitChan where
  /-- The address of a slot. -/
  | proc (i : Slot)
  /-- Any other address. -/
  | other (n : ℕ)
  deriving DecidableEq

/-- `struct proc`. -/
structure ProcStruct where
  /-- What the slot is used for. -/
  state : Procstate
  /-- The process id. -/
  pid : ℕ
  /-- The parent. -/
  parent : Option Slot
  /-- The address it sleeps on. -/
  chan : Option WaitChan
  /-- It has been killed. -/
  killed : Bool
  /-- Its kernel stack. -/
  kstack : Option ℕ
  /-- Its page table. -/
  pgdir : Option ℕ

/-- How far `fork` has got with the new slot. -/
inductive Phase where
  /-- `allocproc` has taken it. -/
  | taken
  /-- It has a kernel stack. -/
  | stacked
  /-- It has a page table. -/
  | copied
  /-- It has a parent. -/
  | adopted
  deriving DecidableEq

/-- Where in the kernel a process is. -/
inductive Pc where
  /-- In none of the calls below. -/
  | user
  /-- In `fork`, with the slot of the child. -/
  | forking (ph : Phase) (np : Slot)
  /-- Asleep in `wait`. -/
  | waiting
  /-- Asleep in `sleep_proc`. -/
  | sleeping
  deriving DecidableEq

/-- A process exits. -/
structure Exit where
  /-- Its pid. -/
  pid : ℕ
  /-- Its parent at that time. -/
  parent : Option Slot

/-- A call of `wait` returns a process. -/
structure Reap where
  /-- The pid returned. -/
  pid : ℕ
  /-- The process that called `wait`. -/
  caller : Slot

/-- What has happened so far. -/
structure Log where
  /-- Who has exited. -/
  exits : List Exit
  /-- Whom `wait` has returned. -/
  reaps : List Reap
  /-- The kernel stacks given to `kfree`. -/
  freedStacks : List ℕ
  /-- The page tables given to `freevm`. -/
  freedTables : List ℕ

namespace Log

/-- A process exits. -/
def exited (l : Log) (pid : ℕ) (parent : Option Slot) : Log :=
  { l with exits := l.exits ++ [⟨pid, parent⟩] }

/-- A call of `wait` returns a process. -/
def reaped (l : Log) (pid : ℕ) (caller : Slot) : Log :=
  { l with reaps := l.reaps ++ [⟨pid, caller⟩] }

/-- `kfree` of a kernel stack. -/
def kfree (l : Log) (kstack : Option ℕ) : Log :=
  { l with freedStacks := l.freedStacks ++ kstack.toList }

/-- `freevm` of a page table. -/
def freevm (l : Log) (pgdir : Option ℕ) : Log :=
  { l with freedTables := l.freedTables ++ pgdir.toList }

end Log

/-- The process table. -/
structure Table where
  /-- `ptable.proc_table`. -/
  proc : Slot → ProcStruct
  /-- `NEXTPID`. -/
  nextpid : ℕ
  /-- Where each process is. -/
  pc : Slot → Pc
  /-- What has happened. -/
  log : Log

namespace Table

/-- Write to a slot. -/
def modify (t : Table) (i : Slot) (f : ProcStruct → ProcStruct) : Table :=
  { t with proc := Function.update t.proc i (f (t.proc i)) }

/-- A process gets to another place. -/
def goto (t : Table) (p : Slot) (c : Pc) : Table := { t with pc := Function.update t.pc p c }

/-- The first slot with a property. -/
def firstSlot (f : Slot → Bool) : Option Slot := (List.finRange NPROC).find? f

/-! ## Making a process -/

/-- The locked part of `allocproc`, called from `fork`; `NEXTPID` may not overflow. -/
def allocproc (p : Slot) (t : Table) : Option Table :=
  match firstSlot fun i => (t.proc i).state = .UNUSED with
  | none => some t
  | some np =>
    if t.nextpid + 1 < 2 ^ 31 then
      some (({ t with nextpid := t.nextpid + 1 }.modify np fun x =>
        { x with state := .EMBRYO, pid := t.nextpid }).goto p (.forking .taken np))
    else none

/-- The rest of `allocproc`: the kernel stack, or no memory for it. -/
def allocStack (p np : Slot) (ok : Bool) (t : Table) : Table :=
  if ok then
    (t.modify np fun x => { x with kstack := some x.pid }).goto p (.forking .stacked np)
  else (t.modify np fun x => { x with state := .UNUSED }).goto p .user

/-- `fork` copies the address space, or gives the slot back. -/
def copySpace (p np : Slot) (ok : Bool) (t : Table) : Table :=
  if ok then
    (t.modify np fun x => { x with pgdir := some x.pid }).goto p (.forking .copied np)
  else
    ({ t with log := t.log.kfree (t.proc np).kstack }.modify np fun x =>
      { x with kstack := none, state := .UNUSED }).goto p .user

/-- `(*np).parent = p`. -/
def adopt (p np : Slot) (t : Table) : Table :=
  (t.modify np fun x => { x with parent := some p }).goto p (.forking .adopted np)

/-- `(*np).state = RUNNABLE`, and `fork` returns. -/
def start (p np : Slot) (t : Table) : Table :=
  (t.modify np fun x => { x with state := .RUNNABLE }).goto p .user

/-! ## Sleeping and waking -/

/-- `wakeup1`. -/
def wakeup1 (c : Option WaitChan) (t : Table) : Table :=
  { t with proc := fun i =>
      if (t.proc i).state = .SLEEPING ∧ (t.proc i).chan = c then
        { t.proc i with state := .RUNNABLE }
      else t.proc i }

/-- What `kill` does to the slot it finds. -/
def killSlot (i : Slot) (t : Table) : Table :=
  t.modify i fun x =>
    { x with killed := true, state := if x.state = .SLEEPING then .RUNNABLE else x.state }

/-- `kill`: the first slot with the pid, whatever its state. -/
def kill (pid : ℤ) (t : Table) : ℤ × Table :=
  match firstSlot fun i => ((t.proc i).pid : ℤ) = pid with
  | some i => (0, t.killSlot i)
  | none => (-1, t)

/-- The tail of `sleep_proc` up to `sched`. -/
def fallAsleep (p : Slot) (c : WaitChan) (pc : Pc) (t : Table) : Table :=
  (t.modify p fun x => { x with chan := some c, state := .SLEEPING }).goto p pc

/-! ## Ending a process -/

/-- One pass of the loop of `exit` that gives the children away. -/
def abandon (p : Slot) (t : Table) (i : Slot) : Table :=
  if (t.proc i).parent = some p then
    let t' := t.modify i fun x => { x with parent := some INITPROC }
    if (t.proc i).state = .ZOMBIE then wakeup1 (some (.proc INITPROC)) t' else t'
  else t

/-- The loop. -/
def reparent (p : Slot) (t : Table) : Table := (List.finRange NPROC).foldl (abandon p) t

/-- The locked part of `exit`, up to `sched`. -/
def exit (p : Slot) (t : Table) : Table :=
  let t' := reparent p (wakeup1 ((t.proc p).parent.map .proc) t)
  { t' with log := t'.log.exited (t.proc p).pid (t.proc p).parent }.modify p fun x =>
    { x with state := .ZOMBIE }

/-- `wait` has found a child that has exited. -/
def reap (p i : Slot) (t : Table) : Table :=
  { t with log := ((t.log.kfree (t.proc i).kstack).freevm (t.proc i).pgdir).reaped (t.proc i).pid p
    }.modify i fun x =>
      { x with kstack := none, pid := 0, parent := none, killed := false, state := .UNUSED }

/-- A child that `wait` looks for. -/
def zombieChild (p : Slot) (t : Table) (i : Slot) : Bool :=
  (t.proc i).parent = some p ∧ (t.proc i).state = .ZOMBIE

/-- The loop of `wait`, up to its return or its sleep. -/
def waitScan (p : Slot) (t : Table) : Table :=
  match firstSlot (zombieChild p t) with
  | some i => (reap p i t).goto p .user
  | none =>
    if (firstSlot fun i => (t.proc i).parent = some p) = none ∨
      (t.proc p).killed then t.goto p .user
    else t.fallAsleep p (.proc p) .waiting

/-- The scheduler picks a process, which goes on where it was. -/
def schedule (p : Slot) (t : Table) : Table :=
  let t' := t.modify p fun x => { x with state := .RUNNING }
  match t.pc p with
  | .waiting => waitScan p (t'.modify p fun x => { x with chan := none })
  | .sleeping => (t'.modify p fun x => { x with chan := none }).goto p .user
  | _ => t'

end Table

/-- What can happen next. -/
inductive TableAct where
  /-- `fork` is called. -/
  | allocproc (p : Slot)
  /-- It allocates the kernel stack. -/
  | allocStack (p : Slot) (ok : Bool)
  /-- It copies the address space. -/
  | copySpace (p : Slot) (ok : Bool)
  /-- It sets the parent. -/
  | adopt (p : Slot)
  /-- It makes the child runnable. -/
  | start (p : Slot)
  /-- `exit`. -/
  | exit (p : Slot)
  /-- `wait`. -/
  | wait (p : Slot)
  /-- `kill`. -/
  | kill (p : Slot) (pid : ℤ)
  /-- `sleep_proc` on an address. -/
  | sleep (p : Slot) (c : WaitChan)
  /-- `wakeup`, by a process or an interrupt. -/
  | wakeup (c : WaitChan)
  /-- `yield_proc`. -/
  | yield (p : Slot)
  /-- The scheduler. -/
  | schedule (p : Slot)

open Table in
/-- One step.  A call is made by a process that runs and is in no other call; only `wait`
sleeps on the caller's own slot, and `init` does not exit. -/
def tableStep (t : Table) : TableAct → Option Table
  | .allocproc p =>
    match (t.proc p).state, t.pc p with
    | .RUNNING, .user => allocproc p t
    | _, _ => none
  | .allocStack p ok =>
    match t.pc p with
    | .forking .taken np => some (allocStack p np ok t)
    | _ => none
  | .copySpace p ok =>
    match t.pc p with
    | .forking .stacked np => some (copySpace p np ok t)
    | _ => none
  | .adopt p =>
    match t.pc p with
    | .forking .copied np => some (adopt p np t)
    | _ => none
  | .start p =>
    match t.pc p with
    | .forking .adopted np => some (start p np t)
    | _ => none
  | .exit p =>
    match (t.proc p).state, t.pc p with
    | .RUNNING, .user => if p = INITPROC then none else some (exit p t)
    | _, _ => none
  | .wait p =>
    match (t.proc p).state, t.pc p with
    | .RUNNING, .user => some (waitScan p t)
    | _, _ => none
  | .kill p pid =>
    match (t.proc p).state, t.pc p with
    | .RUNNING, .user => some (kill pid t).2
    | _, _ => none
  | .sleep p c =>
    match (t.proc p).state, t.pc p with
    | .RUNNING, .user => if c = .proc p then none else some (fallAsleep p c .sleeping t)
    | _, _ => none
  | .wakeup c => some (wakeup1 (some c) t)
  | .yield p =>
    match (t.proc p).state, t.pc p with
    | .RUNNING, .user => some (t.modify p fun x => { x with state := .RUNNABLE })
    | _, _ => none
  | .schedule p =>
    match (t.proc p).state with
    | .RUNNABLE => some (schedule p t)
    | _ => none

/-- The table after `userinit`. -/
def bootTable : Table where
  proc i := if i = INITPROC then ⟨.RUNNABLE, 1, none, none, false, some 1, some 1⟩
    else ⟨.UNUSED, 0, none, none, false, none, none⟩
  nextpid := 2
  pc _ := .user
  log := ⟨[], [], [], []⟩

end Xv6.Proc
