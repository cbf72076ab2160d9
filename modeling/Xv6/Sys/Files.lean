import Xv6.Lib.Fallible
import Xv6.Proc.Table

/-!
# Open files

The file table of `crates/fs/src/file.rs` and the calls that move references to it:
`sys_dup`, `sys_close` and `sys_pipe` of `crates/syscall/src/sysfile.rs` with `pipealloc`,
and what `fork` and `exit` do with the open files of a process.

* `Balanced` — how far the counts of the file table are off while a call is under way.
* `file_refs_exact` — between calls they are exact, and no call panics over a count.
-/

namespace Xv6.Sys

open Lib Proc Function List

/-- A file descriptor. -/
abbrev Fd : Type := Fin NOFILE

/-- A slot of the file table. -/
abbrev FileId : Type := Fin NFILE

/-- `enum FileType`. -/
inductive FileType where
  | none
  | pipe
  | inode
  deriving DecidableEq

/-- `struct File`; pipes and inodes are named by numbers. -/
structure File where
  /-- What it refers to. -/
  ftype : FileType
  /-- The reference count. -/
  ref : ℤ
  /-- It may be read. -/
  readable : Bool
  /-- It may be written. -/
  writable : Bool
  /-- Its pipe. -/
  pipe : Option ℕ
  /-- Its inode. -/
  ip : Option ℕ

/-- What `fileclose` does after the last reference is gone. -/
inductive Cleanup where
  /-- `pipeclose`. -/
  | pipeclose (pipe : Option ℕ) (writable : Bool)
  /-- `iput`. -/
  | iput (ip : Option ℕ)

/-- The file table, the open files of the processes, and which slots of the process table
hold a process. -/
structure Files where
  /-- `ftable.file`. -/
  file : FileId → File
  /-- `ofile` of each process. -/
  ofile : Slot × Fd → Option FileId
  /-- The slot holds a process that has not exited. -/
  live : Slot → Bool
  /-- The next page for a pipe. -/
  nextPipe : ℕ
  /-- The cleanups done. -/
  cleanups : List Cleanup

/-! ## Counting the entries of an array -/

section Entries

variable {E A : Type} [Fintype E] [DecidableEq E] [DecidableEq A]

/-- The number of entries of an array that hold `a`. -/
def entries (g : E → Option A) (a : A) : ℕ := (Finset.univ.filter fun e => g e = some a).card

/-- A write trades the old entry for the new one. -/
theorem entries_update (g : E → Option A) (e : E) (o : Option A) (a : A) :
    (entries (update g e o) a : ℤ) + (if g e = some a then 1 else 0) =
      entries g a + if o = some a then 1 else 0 := by
  have hsum := sum_update_add (fun x : Option A => if x = some a then (1 : ℤ) else 0) g e o
  simpa only [entries, Finset.card_filter, Nat.cast_sum, Nat.cast_ite, Nat.cast_one, Nat.cast_zero]
    using hsum

omit [DecidableEq E] in
theorem one_le_entries {g : E → Option A} {e : E} {a : A} (h : g e = some a) : 1 ≤ entries g a :=
  Finset.card_pos.2 ⟨e, Finset.mem_filter.2 ⟨Finset.mem_univ e, h⟩⟩

omit [DecidableEq E] in
theorem entries_empty (a : A) : entries (fun _ : E => (none : Option A)) a = 0 :=
  Finset.card_eq_zero.2 (Finset.filter_eq_empty_iff.2 fun _ _ he => by cases he)

end Entries

namespace Files

/-! ## The file table -/

/-- Write to a slot of the file table. -/
def setFile (s : Files) (f : FileId) (x : File) : Files :=
  { s with file := update s.file f x }

/-- Write to a descriptor. -/
def setFd (s : Files) (e : Slot × Fd) (o : Option FileId) : Files :=
  { s with ofile := update s.ofile e o }

/-- `filealloc`. -/
def filealloc (s : Files) : Files × Option FileId :=
  match (List.finRange NFILE).find? fun f => (s.file f).ref = 0 with
  | some f => (s.setFile f { s.file f with ref := 1 }, some f)
  | none => (s, none)

/-- `filedup`. -/
def filedup (f : FileId) (s : Files) : Except String Files :=
  if (s.file f).ref < 1 then throw "filedup"
  else pure (s.setFile f { s.file f with ref := (s.file f).ref + 1 })

/-- The cleanup for a file. -/
def cleanup (x : File) : List Cleanup :=
  match x.ftype with
  | .pipe => [.pipeclose x.pipe x.writable]
  | .inode => [.iput x.ip]
  | .none => []

/-- `fileclose`. -/
def fileclose (f : FileId) (s : Files) : Except String Files :=
  if (s.file f).ref < 1 then throw "fileclose"
  else if 0 < (s.file f).ref - 1 then
    pure (s.setFile f { s.file f with ref := (s.file f).ref - 1 })
  else
    pure { s.setFile f { s.file f with
        ref := (s.file f).ref - 1
        ftype := .none
        pipe := .none
        ip := .none } with
      cleanups := s.cleanups ++ cleanup (s.file f) }

/-! ## System calls -/

/-- `fdalloc`. -/
def fdalloc (p : Slot) (f : FileId) (s : Files) : Files × Option Fd :=
  match (List.finRange NOFILE).find? fun fd => s.ofile (p, fd) = none with
  | some fd => (s.setFd (p, fd) (some f), some fd)
  | none => (s, none)

/-- `argfd`, for the descriptor given. -/
def argfd (p : Slot) (fd : ℤ) (s : Files) : Option (Fd × FileId) :=
  if h : 0 ≤ fd ∧ fd < NOFILE then
    (s.ofile (p, ⟨fd.toNat, by omega⟩)).map fun f => (⟨fd.toNat, by omega⟩, f)
  else none

/-- `sys_dup`. -/
def sysDup (p : Slot) (fd : ℤ) (s : Files) : Except String (Files × ℤ) :=
  match argfd p fd s with
  | none => pure (s, -1)
  | some (_, f) =>
    match fdalloc p f s with
    | (s, none) => pure (s, -1)
    | (s, some fd) => do
      let s ← filedup f s
      pure (s, fd)

/-- `sys_close`. -/
def sysClose (p : Slot) (fd : ℤ) (s : Files) : Except String (Files × ℤ) :=
  match argfd p fd s with
  | none => pure (s, -1)
  | some (fd, f) => do
    let s ← fileclose f (s.setFd (p, fd) none)
    pure (s, 0)

/-- `pipealloc`, with or without memory for the pipe. -/
def pipealloc (memory : Bool) (s : Files) : Except String (Files × Option (FileId × FileId)) :=
  match filealloc s with
  | (s, none) => pure (s, none)
  | (s, some f₀) =>
    match filealloc s with
    | (s, none) => do
      let s ← fileclose f₀ s
      pure (s, none)
    | (s, some f₁) =>
      if memory then
        let s := s.setFile f₀ { s.file f₀ with
          ftype := .pipe, readable := true, writable := false, pipe := some s.nextPipe }
        let s := s.setFile f₁ { s.file f₁ with
          ftype := .pipe, readable := false, writable := true, pipe := some s.nextPipe }
        pure ({ s with nextPipe := s.nextPipe + 1 }, some (f₀, f₁))
      else do
        let s ← fileclose f₀ s
        let s ← fileclose f₁ s
        pure (s, none)

/-- `sys_pipe`, with the verdict of `argptr` on the user's array. -/
def sysPipe (p : Slot) (valid memory : Bool) (s : Files) : Except String (Files × ℤ) :=
  if valid then do
    let (s, fs) ← pipealloc memory s
    match fs with
    | none => pure (s, -1)
    | some (rf, wf) =>
      match fdalloc p rf s with
      | (s, none) => do
        let s ← fileclose rf s
        let s ← fileclose wf s
        pure (s, -1)
      | (s, some fd₀) =>
        match fdalloc p wf s with
        | (s, none) => do
          let s ← fileclose rf (s.setFd (p, fd₀) none)
          let s ← fileclose wf s
          pure (s, -1)
        | (s, some _) => pure (s, 0)
  else pure (s, -1)

/-- One pass of the loop of `fork` over the descriptors. -/
def forkFile (p np : Slot) (s : Files) (fd : Fd) : Except String Files :=
  match s.ofile (p, fd) with
  | none => pure s
  | some f => do
    let s ← filedup f s
    pure (s.setFd (np, fd) (some f))

/-- `fork` into the slot that `allocproc` has taken, or without one or without memory. -/
def fork (p np : Slot) (room : Bool) (s : Files) : Except String (Files × ℤ) :=
  if room then do
    let s ← (List.finRange NOFILE).foldlM (forkFile p np)
      { s with live := update s.live np true }
    pure (s, 0)
  else pure (s, -1)

/-- One pass of the loop of `exit` over the descriptors. -/
def exitFile (p : Slot) (s : Files) (fd : Fd) : Except String Files :=
  match s.ofile (p, fd) with
  | none => pure s
  | some f => do
    let s ← fileclose f s
    pure (s.setFd (p, fd) none)

/-- `exit`. -/
def exit (p : Slot) (s : Files) : Except String (Files × ℤ) :=
  if p = INITPROC then throw "init exiting"
  else do
    let s ← (List.finRange NOFILE).foldlM (exitFile p) s
    pure ({ s with live := update s.live p false }, 0)

end Files

/-- The calls. -/
inductive FileAct where
  /-- `fork`. -/
  | fork (p np : Slot) (room : Bool)
  /-- `exit`. -/
  | exit (p : Slot)
  /-- `sys_dup`. -/
  | dup (p : Slot) (fd : ℤ)
  /-- `sys_close`. -/
  | close (p : Slot) (fd : ℤ)
  /-- `sys_pipe`. -/
  | pipe (p : Slot) (valid memory : Bool)

/-- A call, and what it returns. -/
def fileCall (s : Files) : FileAct → Except String (Files × ℤ)
  | .fork p np room => s.fork p np room
  | .exit p => s.exit p
  | .dup p fd => s.sysDup p fd
  | .close p fd => s.sysClose p fd
  | .pipe p valid memory => s.sysPipe p valid memory

/-- The step of a call that returns. -/
def fileStep (s : Files) (a : FileAct) : Option Files := (fileCall s a).toOption.map Prod.fst

/-- A process makes the call; a child gets a slot without a process. -/
def Callable (s : Files) : FileAct → Prop
  | .fork p np _ => s.live p = true ∧ s.live np = false
  | .exit p => s.live p = true
  | .dup p _ => s.live p = true
  | .close p _ => s.live p = true
  | .pipe p _ _ => s.live p = true

instance (s : Files) : DecidablePred (Callable s)
  | .fork p np _ => inferInstanceAs (Decidable (s.live p = true ∧ s.live np = false))
  | .exit p => inferInstanceAs (Decidable (s.live p = true))
  | .dup p _ => inferInstanceAs (Decidable (s.live p = true))
  | .close p _ => inferInstanceAs (Decidable (s.live p = true))
  | .pipe p _ _ => inferInstanceAs (Decidable (s.live p = true))

/-- After `userinit`. -/
def bootFiles : Files where
  file _ := ⟨.none, 0, false, false, none, none⟩
  ofile _ := none
  live p := p = INITPROC
  nextPipe := 0
  cleanups := []

namespace Files

variable {s s' : Files} {f g : FileId} {e : Slot × Fd} {b : FileId → ℤ} {p np : Slot}

/-! ## Counting references -/

/-- The number of descriptors that refer to a file. -/
def refs (s : Files) (f : FileId) : ℕ := entries s.ofile f

/-- A write to a descriptor trades its old reference for the new one. -/
theorem refs_setFd (s : Files) (e : Slot × Fd) (o : Option FileId) (f : FileId) :
    ((s.setFd e o).refs f : ℤ) + (if s.ofile e = some f then 1 else 0) =
      s.refs f + if o = some f then 1 else 0 :=
  entries_update s.ofile e o f

theorem one_le_refs (h : s.ofile e = some f) : 1 ≤ s.refs f := one_le_entries h

/-- The excess of one file changes. -/
def bump (b : FileId → ℤ) (f : FileId) (n : ℤ) : FileId → ℤ := update b f (b f + n)

@[simp] theorem bump_self (b : FileId → ℤ) (f : FileId) (n : ℤ) : bump b f n f = b f + n :=
  update_self ..

theorem bump_of_ne (b : FileId → ℤ) (n : ℤ) (h : g ≠ f) : bump b f n g = b g :=
  update_of_ne h ..

theorem bump_bump (b : FileId → ℤ) (f : FileId) {m n : ℤ} (h : m + n = 0) :
    bump (bump b f m) f n = b := by
  funext g
  by_cases hg : g = f
  · rw [hg, bump_self, bump_self, add_assoc, h, add_zero]
  · rw [bump_of_ne _ _ hg, bump_of_ne _ _ hg]

theorem bump_zero (b : FileId → ℤ) (f : FileId) : bump b f 0 = b := by
  rw [bump, add_zero, update_eq_self]

theorem bump_comm (b : FileId → ℤ) (f g : FileId) (m n : ℤ) :
    bump (bump b f m) g n = bump (bump b g n) f m := by
  funext h
  by_cases hfg : f = g
  · subst hfg
    by_cases hh : h = f
    · rw [hh, bump_self, bump_self, bump_self, bump_self, add_right_comm]
    · rw [bump_of_ne _ _ hh, bump_of_ne _ _ hh, bump_of_ne _ _ hh, bump_of_ne _ _ hh]
  · by_cases hf : h = f
    · rw [hf, bump_of_ne _ _ hfg, bump_self, bump_self, bump_of_ne _ _ hfg]
    · by_cases hg : h = g
      · rw [hg, bump_self, bump_of_ne _ _ (Ne.symm hfg), bump_of_ne _ _ (Ne.symm hfg), bump_self]
      · rw [bump_of_ne _ _ hg, bump_of_ne _ _ hf, bump_of_ne _ _ hf, bump_of_ne _ _ hg]

/-- The counts of the file table exceed the references by `b`, and only processes have open
files. -/
structure Balanced (b : FileId → ℤ) (s : Files) : Prop where
  /-- The counts. -/
  ref : ∀ f, (s.file f).ref = s.refs f + b f
  /-- A slot without a process has no open files. -/
  dead : ∀ p, s.live p = false → ∀ fd, s.ofile (p, fd) = none

/-- The counts are exact. -/
abbrev Sound (s : Files) : Prop := Balanced (fun _ => 0) s

/-- Only the file table has changed. -/
structure SameFds (s s' : Files) : Prop where
  ofile : s'.ofile = s.ofile
  live : s'.live = s.live

theorem SameFds.trans {s'' : Files} (h : SameFds s s') (h' : SameFds s' s'') : SameFds s s'' :=
  ⟨h'.ofile.trans h.ofile, h'.live.trans h.live⟩

/-- A write to the file table that changes the count of its slot by `n`. -/
theorem Balanced.setFile (h : Balanced b s) {x : File} {n : ℤ} (hx : x.ref = (s.file f).ref + n)
    (hfile : s'.file = update s.file f x) (hfds : SameFds s s') : Balanced
      (bump b f n) s' where
  ref g := by
    rw [refs, hfds.ofile, hfile]
    by_cases hg : g = f
    · rw [hg, update_self, bump_self, hx, h.ref f, add_assoc]
      rfl
    · rw [update_of_ne hg, bump_of_ne _ _ hg, h.ref g]
      rfl
  dead p hp fd := by
    rw [hfds.ofile]
    exact h.dead p (hfds.live ▸ hp) fd

/-- A write to the file table that keeps the count. -/
theorem Balanced.setFile_same (h : Balanced b s) {x : File} (hx : x.ref = (s.file f).ref) :
    Balanced b (s.setFile f x) := by
  have hb : Balanced (bump b f 0) (s.setFile f x) :=
    h.setFile (hx.trans (add_zero _).symm) rfl ⟨rfl, rfl⟩
  rwa [bump_zero] at hb

/-- A write to a descriptor of a process. -/
theorem Balanced.setFd (h : Balanced b s) (hp : s.live e.1 = true) {o : Option FileId} {n : ℤ}
    (hn : (if o = some f then 1 else 0) + n = if s.ofile e = some f then 1 else 0)
    (hother : ∀ g, g ≠ f → o ≠ some g ∧ s.ofile e ≠ some g) : Balanced (bump b f n)
      (s.setFd e o) where
  ref g := by
    have hsum := refs_setFd s e o g
    change (s.file g).ref = _
    rw [h.ref g]
    by_cases hg : g = f
    · subst hg
      rw [bump_self]
      omega
    · rw [if_neg (hother g hg).1, if_neg (hother g hg).2] at hsum
      rw [bump_of_ne _ _ hg]
      omega
  dead q hq fd := by
    have hne : (q, fd) ≠ e := by
      rintro rfl
      cases hp.symm.trans hq
    exact (update_of_ne hne ..).trans (h.dead q hq fd)

/-- A free descriptor takes over a reference. -/
theorem Balanced.put (h : Balanced b s) (hp : s.live e.1 = true) (he : s.ofile e = none)
    (f : FileId) :
    Balanced (bump b f (-1)) (s.setFd e (some f)) := by
  refine h.setFd hp (by rw [he, if_pos rfl, if_neg (by simp)]; norm_num) fun g hg =>
    ⟨fun hf => ?_, ?_⟩
  · exact hg (Option.some.inj hf).symm
  · rw [he]
    exact (Option.some_ne_none g).symm

/-- A descriptor gives up its reference. -/
theorem Balanced.clear (h : Balanced b s) (hp : s.live e.1 = true) (he : s.ofile e = some f) :
    Balanced (bump b f 1) (s.setFd e none) := by
  refine h.setFd hp (by rw [he, if_pos rfl, if_neg (by simp)]; norm_num) fun g hg =>
    ⟨(Option.some_ne_none g).symm, fun hf => ?_⟩
  rw [he] at hf
  exact hg (Option.some.inj hf).symm

/-! ## The file table keeps count -/

theorem filealloc_cases (s : Files) : filealloc s = (s, none) ∨
    ∃ f, (s.file f).ref = 0 ∧ filealloc s = (s.setFile f { s.file f with ref := 1 }, some f) := by
  rw [filealloc]
  split
  · rename_i f hf
    have hzero := find?_some hf
    exact .inr ⟨f, of_decide_eq_true hzero, rfl⟩
  · exact .inl rfl

theorem Balanced.filealloc (h : Balanced b s) (hf : (s.file f).ref = 0) :
    Balanced (bump b f 1) (s.setFile f { s.file f with ref := 1 }) :=
  h.setFile (by rw [hf]; rfl) rfl ⟨rfl, rfl⟩

/-- `filedup` of a file with a reference. -/
theorem Balanced.filedup (h : Balanced b s) (hf : 1 ≤ s.refs f + b f) :
    ∃ s', filedup f s = .ok s' ∧ Balanced (bump b f 1) s' ∧ SameFds s s' := by
  rw [Files.filedup, if_neg (by rw [h.ref f]; omega)]
  exact ⟨_, rfl, h.setFile rfl rfl ⟨rfl, rfl⟩, ⟨rfl, rfl⟩⟩

/-- `fileclose` of a file with a reference. -/
theorem Balanced.fileclose (h : Balanced b s) (hf : 1 ≤ s.refs f + b f) :
    ∃ s', fileclose f s = .ok s' ∧ Balanced (bump b f (-1)) s' ∧ SameFds s s' := by
  rw [Files.fileclose, if_neg (by rw [h.ref f]; omega)]
  split_ifs
  · exact ⟨_, rfl, h.setFile rfl rfl ⟨rfl, rfl⟩, ⟨rfl, rfl⟩⟩
  · exact ⟨_, rfl, h.setFile rfl rfl ⟨rfl, rfl⟩, ⟨rfl, rfl⟩⟩

/-- `fileclose` of a file with a count to spare. -/
theorem Balanced.fileclose_spare (h : Balanced (bump b f 1) s) (hb : 0 ≤ b f) :
    ∃ s', Files.fileclose f s = .ok s' ∧ Balanced b s' ∧ SameFds s s' := by
  obtain ⟨s', hok, hb', hs⟩ := h.fileclose (f := f) (by rw [bump_self]; omega)
  rw [bump_bump _ _ (by norm_num)] at hb'
  exact ⟨s', hok, hb', hs⟩

theorem fdalloc_cases (p : Slot) (f : FileId) (s : Files) : fdalloc p f s = (s, none) ∨
    ∃ fd, s.ofile (p, fd) = none ∧ fdalloc p f s = (s.setFd (p, fd) (some f), some fd) := by
  rw [fdalloc]
  split
  · rename_i fd hfd
    have hfree := find?_some hfd
    exact .inr ⟨fd, of_decide_eq_true hfree, rfl⟩
  · exact .inl rfl

theorem argfd_some {fd : ℤ} {fd' : Fd} (h : argfd p fd s = some (fd', f)) :
    s.ofile (p, fd') = some f := by
  rw [argfd] at h
  split_ifs at h with hfd
  obtain ⟨g, hg, he⟩ := Option.map_eq_some_iff.1 h
  cases he
  exact hg

/-! ## Each call -/

theorem sound_sysDup (h : s.Sound) (hp : s.live p = true) (fd : ℤ) :
    ∃ r, sysDup p fd s = .ok r ∧ r.1.Sound := by
  rw [sysDup]
  cases harg : argfd p fd s with
  | none => exact ⟨_, rfl, h⟩
  | some x =>
    obtain ⟨old, f⟩ := x
    have hold := argfd_some harg
    rcases fdalloc_cases p f s with hfull | ⟨new, hnew, hput⟩
    · simp only [hfull]
      exact ⟨_, rfl, h⟩
    · -- two descriptors refer to the file, and one of them is not counted yet
      simp only [hput]
      have hcount : (1 : ℤ) ≤ (s.setFd (p, new) (some f)).refs f + bump (fun _ => 0) f (-1) f := by
        have hsum := refs_setFd s (p, new) (some f) f
        have hone := one_le_refs hold
        rw [hnew, if_neg (Option.some_ne_none f).symm, if_pos rfl] at hsum
        rw [bump_self]
        omega
      obtain ⟨s', hdup, hb', -⟩ := (h.put hp hnew f).filedup hcount
      rw [bump_bump _ _ (by norm_num)] at hb'
      exact ⟨(s', new), by rw [hdup]; rfl, hb'⟩

theorem sound_sysClose (h : s.Sound) (hp : s.live p = true) (fd : ℤ) :
    ∃ r, sysClose p fd s = .ok r ∧ r.1.Sound := by
  rw [sysClose]
  cases harg : argfd p fd s with
  | none => exact ⟨_, rfl, h⟩
  | some x =>
    obtain ⟨fd', f⟩ := x
    obtain ⟨s', hclose, hb, -⟩ := (h.clear hp (argfd_some harg)).fileclose_spare le_rfl
    exact ⟨(s', 0), by simp only [hclose]; rfl, hb⟩

/-- One pass of the loop of `fork`: the reference is counted and then stored. -/
theorem sound_forkFile (h : s.Sound) (hp : s.live np = true) {fd : Fd}
    (hfree : s.ofile (np, fd) = none) :
    ∃ s', forkFile p np s fd = .ok s' ∧ s'.Sound ∧ s'.live = s.live ∧
      ∀ fd', fd' ≠ fd → s'.ofile (np, fd') = s.ofile (np, fd') := by
  rw [forkFile]
  cases hold : s.ofile (p, fd) with
  | none => exact ⟨s, rfl, h, rfl, fun _ _ => rfl⟩
  | some f =>
    have hone := one_le_refs hold
    obtain ⟨s', hdup, hb, hs⟩ := h.filedup (f := f) (by omega)
    have hput := hb.put (e := (np, fd)) (hs.live ▸ hp) (hs.ofile ▸ hfree) f
    rw [bump_bump _ _ (by norm_num)] at hput
    refine ⟨s'.setFd (np, fd) (some f), by simp only [hdup]; rfl, hput, hs.live, fun fd' hne => ?_⟩
    have hne' : (np, fd') ≠ (np, fd) := fun he => hne (Prod.ext_iff.1 he).2
    exact (update_of_ne hne' ..).trans (congrFun hs.ofile _)

theorem sound_fork (h : s.Sound) (hnp : s.live np = false) (room : Bool) :
    ∃ r, fork p np room s = .ok r ∧ r.1.Sound := by
  rw [fork]
  cases room with
  | false => exact ⟨_, rfl, h⟩
  | true =>
    have hstart : Sound { s with live := update s.live np true } := by
      refine ⟨h.ref, fun q hq => h.dead q ?_⟩
      by_cases hqn : q = np
      · exact hqn ▸ hnp
      · exact (update_of_ne hqn ..).symm.trans hq
    -- the child's descriptors that are still to come are free
    obtain ⟨s', hloop, hb, -⟩ := foldlM_ok_of (f := forkFile p np) (l := List.finRange NOFILE)
      (I := fun rest x => x.Sound ∧ x.live np = true ∧ rest.Nodup ∧ ∀ fd ∈ rest,
        x.ofile (np, fd) = none)
      ⟨hstart, update_self .., nodup_finRange NOFILE, fun fd _ => h.dead np hnp fd⟩
        (by
        rintro fd rest x ⟨hx, hlive, hnodup, hfree⟩
        obtain ⟨x', hok, hx', hlive', hsame⟩ :=
          sound_forkFile (p := p) hx hlive (hfree fd mem_cons_self)
        refine ⟨x', hok, hx', by rw [hlive', hlive], (nodup_cons.1 hnodup).2, fun fd' hfd' => ?_⟩
        rw [hsame fd' fun he => (nodup_cons.1 hnodup).1 (he ▸ hfd')]
        exact hfree fd' (mem_cons_of_mem _ hfd'))
    exact ⟨(s', 0), bind_eq_ok.2 ⟨s', hloop, rfl⟩, hb⟩

/-- One pass of the loop of `exit`: the reference is dropped and then forgotten. -/
theorem sound_exitFile (h : s.Sound) (hp : s.live p = true) (fd : Fd) :
    ∃ s', exitFile p s fd = .ok s' ∧ s'.Sound ∧ s'.live = s.live ∧ s'.ofile (p, fd) = none ∧
      ∀ fd', fd' ≠ fd → s'.ofile (p, fd') = s.ofile (p, fd') := by
  rw [exitFile]
  cases hold : s.ofile (p, fd) with
  | none => exact ⟨s, rfl, h, rfl, hold, fun _ _ => rfl⟩
  | some f =>
    have hone := one_le_refs hold
    obtain ⟨s', hclose, hb, hs⟩ := h.fileclose (f := f) (by omega)
    have hclear := hb.clear (e := (p, fd)) (hs.live ▸ hp) (hs.ofile ▸ hold)
    rw [bump_bump _ _ (by norm_num)] at hclear
    refine ⟨s'.setFd (p, fd) none, by simp only [hclose]; rfl, hclear, hs.live, update_self ..,
      fun fd' hne => ?_⟩
    have hne' : (p, fd') ≠ (p, fd) := fun he => hne (Prod.ext_iff.1 he).2
    exact (update_of_ne hne' ..).trans (congrFun hs.ofile _)

theorem sound_exit (h : s.Sound) (hp : s.live p = true) (hinit : p ≠ INITPROC) :
    ∃ r, exit p s = .ok r ∧ r.1.Sound := by
  rw [exit, if_neg hinit]
  -- the descriptors that are not still to come are free
  obtain ⟨s', hloop, hb, -, hdone⟩ :=
    foldlM_ok_of (f := exitFile p) (l := List.finRange NOFILE) (a := s)
    (I := fun rest x => x.Sound ∧ x.live p = true ∧ ∀ fd, fd ∉ rest → x.ofile (p, fd) = none)
    ⟨h, hp, fun fd hfd => absurd (mem_finRange fd) hfd⟩ (by
      rintro fd rest x ⟨hx, hlive, hdone⟩
      obtain ⟨x', hok, hx', hlive', hfree, hsame⟩ := sound_exitFile hx hlive fd
      refine ⟨x', hok, hx', by rw [hlive', hlive], fun fd' hfd' => ?_⟩
      by_cases he : fd' = fd
      · exact he ▸ hfree
      · rw [hsame fd' he]
        exact hdone fd' (by simp [he, hfd']))
  refine ⟨_, bind_eq_ok.2 ⟨s', hloop, rfl⟩, hb.ref, fun q hq fd => ?_⟩
  by_cases hqp : q = p
  · exact hqp ▸ hdone fd not_mem_nil
  · exact hb.dead q ((update_of_ne hqp ..).symm.trans hq) fd

/-- `pipealloc` returns two files that are counted once each and referred to by nobody, or
leaves the counts exact. -/
theorem balanced_pipealloc (h : s.Sound) (memory : Bool) :
    ∃ r, pipealloc memory s = .ok r ∧ SameFds s r.1 ∧
    match r.2 with
    | none => r.1.Sound
    | some (f₀, f₁) => Balanced (bump (bump (fun _ => 0) f₁ 1) f₀ 1) r.1 := by
  rw [pipealloc]
  rcases filealloc_cases s with hnone | ⟨f₀, hzero, halloc⟩
  · simp only [hnone]
    exact ⟨_, rfl, ⟨rfl, rfl⟩, h⟩
  · simp only [halloc]
    have hb := h.filealloc hzero
    set s₁ := s.setFile f₀ { s.file f₀ with ref := 1 }
    have hs₁ : SameFds s s₁ := ⟨rfl, rfl⟩
    rcases filealloc_cases s₁ with hnone | ⟨f₁, hzero₁, halloc₁⟩
    · simp only [hnone]
      obtain ⟨s', hclose, hb', hs'⟩ := hb.fileclose_spare le_rfl
      exact ⟨(s', none), by simp only [hclose]; rfl, hs₁.trans hs', hb'⟩
    · simp only [halloc₁]
      have hb₁ := hb.filealloc hzero₁
      rw [bump_comm] at hb₁
      set s₂ := s₁.setFile f₁ { s₁.file f₁ with ref := 1 }
      have hs₂ : SameFds s s₂ := ⟨rfl, rfl⟩
      cases memory with
      | true =>
        -- the two ends are wired up
        have hread := hb₁.setFile_same (f := f₀) (x := { s₂.file f₀ with
          ftype := .pipe, readable := true, writable := false, pipe := some s₂.nextPipe }) rfl
        set s₃ := s₂.setFile f₀ { s₂.file f₀ with
          ftype := .pipe, readable := true, writable := false, pipe := some s₂.nextPipe }
        have hwrite := hread.setFile_same (f := f₁) (x := { s₃.file f₁ with
          ftype := .pipe, readable := false, writable := true, pipe := some s₃.nextPipe }) rfl
        exact ⟨_, rfl, ⟨rfl, rfl⟩, hwrite.ref, hwrite.dead⟩
      | false =>
        have hpos : (0 : ℤ) ≤ bump (fun _ => 0) f₁ 1 f₀ := by
          by_cases he : f₀ = f₁
          · rw [he, bump_self]
            norm_num
          · rw [bump_of_ne _ _ he]
        obtain ⟨s₃, hclose₃, hb₃, hs₃⟩ := hb₁.fileclose_spare hpos
        obtain ⟨s₄, hclose₄, hb₄, hs₄⟩ := hb₃.fileclose_spare le_rfl
        rw [if_neg Bool.false_ne_true]
        exact ⟨(s₄, none), bind_eq_ok.2 ⟨s₃, hclose₃, bind_eq_ok.2 ⟨s₄, hclose₄, rfl⟩⟩,
          (hs₂.trans hs₃).trans hs₄, hb₄⟩

theorem sound_sysPipe (h : s.Sound) (hp : s.live p = true) (valid memory : Bool) :
    ∃ r, sysPipe p valid memory s = .ok r ∧ r.1.Sound := by
  rw [sysPipe]
  cases valid with
  | false => exact ⟨_, rfl, h⟩
  | true =>
    obtain ⟨⟨s₁, fs⟩, hok, hs₁, hfs⟩ := balanced_pipealloc h memory
    rw [if_pos rfl, hok]
    simp only [bind, Except.bind]
    cases fs with
    | none => exact ⟨_, rfl, hfs⟩
    | some x =>
      obtain ⟨rf, wf⟩ := x
      have hlive : s₁.live p = true := by rw [hs₁.live, hp]
      have hb : Balanced (bump (bump (fun _ => 0) wf 1) rf 1) s₁ := hfs
      have hpos : (0 : ℤ) ≤ bump (fun _ => 0) wf 1 rf := by
        by_cases he : rf = wf
        · rw [he, bump_self]
          norm_num
        · rw [bump_of_ne _ _ he]
      rcases fdalloc_cases p rf s₁ with hfull | ⟨fd₀, hfree₀, hput₀⟩
      · -- no descriptor for the read end
        simp only [hfull]
        obtain ⟨s₂, hclose₂, hb₂, -⟩ := hb.fileclose_spare hpos
        obtain ⟨s₃, hclose₃, hb₃, -⟩ := hb₂.fileclose_spare le_rfl
        exact ⟨(s₃, -1), bind_eq_ok.2 ⟨s₂, hclose₂, bind_eq_ok.2 ⟨s₃, hclose₃, rfl⟩⟩, hb₃⟩
      · simp only [hput₀]
        have hb₂ := hb.put (e := (p, fd₀)) hlive hfree₀ rf
        rw [bump_bump _ _ (by norm_num)] at hb₂
        set s₂ := s₁.setFd (p, fd₀) (some rf) with hs₂
        rcases fdalloc_cases p wf s₂ with hfull | ⟨fd₁, hfree₁, hput₁⟩
        · -- none for the write end: the first is taken back
          simp only [hfull]
          have hset : s₂.ofile (p, fd₀) = some rf := update_self ..
          obtain ⟨s₃, hclose₃, hb₃, -⟩ :=
            (hb₂.clear (e := (p, fd₀)) hlive hset).fileclose_spare hpos
          obtain ⟨s₄, hclose₄, hb₄, -⟩ := hb₃.fileclose_spare le_rfl
          exact ⟨(s₄, -1), bind_eq_ok.2 ⟨s₃, hclose₃, bind_eq_ok.2 ⟨s₄, hclose₄, rfl⟩⟩, hb₄⟩
        · simp only [hput₁]
          have hb₃ := hb₂.put (e := (p, fd₁)) hlive hfree₁ wf
          rw [bump_bump _ _ (by norm_num)] at hb₃
          exact ⟨_, rfl, hb₃⟩

/-! ## Runs -/

/-- Every call returns and keeps the counts exact, except that `init` may not exit. -/
theorem sound_fileCall (h : s.Sound) {a : FileAct} (ha : Callable s a) :
    (∃ r, fileCall s a = .ok r ∧ r.1.Sound) ∨ fileCall s a = .error "init exiting" := by
  cases a with
  | fork p np room => exact .inl (sound_fork h ha.2 room)
  | exit p =>
    by_cases hinit : p = INITPROC
    · exact .inr (if_pos hinit)
    · exact .inl (sound_exit h ha hinit)
  | dup p fd => exact .inl (sound_sysDup h ha fd)
  | close p fd => exact .inl (sound_sysClose h ha fd)
  | pipe p valid memory => exact .inl (sound_sysPipe h ha valid memory)

theorem sound_bootFiles : bootFiles.Sound := by
  refine ⟨fun f => ?_, fun _ _ _ => rfl⟩
  rw [show bootFiles.refs f = 0 from entries_empty f]
  rfl

theorem sound_of_reach (h : Reach fileStep Callable bootFiles s) : s.Sound := by
  refine h.invariant (I := Sound) sound_bootFiles fun s a s' hs ha hstep => ?_
  rcases sound_fileCall hs ha with ⟨r, hok, hr⟩ | herr
  · rw [fileStep, hok] at hstep
    cases hstep
    exact hr
  · rw [fileStep, herr] at hstep
    cases hstep

/-- **Reference counts of open files are exact.**  In every state reached by `fork`, `exit`,
`sys_dup`, `sys_close` and `sys_pipe`: the count of a slot of the file table is the number
of descriptors that refer to it; no descriptor refers to a free slot; `filealloc` hands out
no slot that is referred to; and no call panics, except that `init` may not exit. -/
theorem file_refs_exact (h : Reach fileStep Callable bootFiles s) :
    (∀ f, (s.file f).ref = (Finset.univ.filter fun e : Slot × Fd => s.ofile e = some f).card) ∧
      (∀ e f, s.ofile e = some f → (s.file f).ref ≠ 0) ∧
      (∀ f s', filealloc s = (s', some f) → ∀ e, s.ofile e ≠ some f) ∧
      ∀ a msg, Callable s a → fileCall s a = .error msg → msg = "init exiting" := by
  have hs := sound_of_reach h
  have hexact : ∀ f, (s.file f).ref = s.refs f := fun f => (hs.ref f).trans (add_zero _)
  have hused : ∀ e f, s.ofile e = some f → (s.file f).ref ≠ 0 := fun e f he => by
    have hone := one_le_refs he
    rw [hexact f]
    omega
  refine ⟨hexact, hused, fun f s' halloc e he => ?_, fun a msg ha hmsg => ?_⟩
  · rcases filealloc_cases s with hnone | ⟨g, hzero, hg⟩
    · rw [hnone] at halloc
      cases halloc
    · rw [hg] at halloc
      cases halloc
      exact hused e f he hzero
  · rcases sound_fileCall hs ha with ⟨r, hok, -⟩ | herr
    · rw [hok] at hmsg
      cases hmsg
    · rw [herr] at hmsg
      cases hmsg
      rfl

/-- `init` makes a pipe, duplicates its read end and forks: six references to two files. -/
def threeCalls (np : Slot) : List FileAct :=
  [.pipe INITPROC true true, .dup INITPROC 0, .fork INITPROC np true]

/-- The counts after these calls. -/
theorem file_refs_exact_threeCalls : ∃ s, Reach fileStep Callable bootFiles s ∧
    s.ofile (0, 0) = some 0 ∧ (s.file 0).ref ≠ 0 := by
  obtain ⟨s, hs⟩ := Option.isSome_iff_exists.1
    (by decide +kernel : (exec fileStep (fun s a => decide (Callable s a)) bootFiles
      (threeCalls 1)).isSome = true)
  have hfd : (exec fileStep (fun s a => decide (Callable s a)) bootFiles (threeCalls 1)).map
      (fun s => s.ofile (0, 0)) = some (some 0) := by decide +kernel
  have hreach : Reach fileStep Callable bootFiles s :=
    reach_of_exec (fun _ _ h => of_decide_eq_true h) .init hs
  rw [hs, Option.map_some, Option.some.injEq] at hfd
  exact ⟨s, hreach, hfd, (file_refs_exact hreach).2.1 _ _ hfd⟩

end Files

end Xv6.Sys
