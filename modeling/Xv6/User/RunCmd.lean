import Xv6.Sys.PipeLife
import Xv6.User.Sh

/-!
# What the shell runs

`runcmd` of `user/src/sh.rs` on the descriptors of the processes it forks.  A process has a table
of its own, so what a process of the shell finds there does not depend on the others; a pipe is
named by the node of the command that makes it.  `wait` is taken to return.

* `close`, `dup`, `pipe` — the calls on one table, and `sysClose_table`, `sysDup_table`,
  `sysPipe_table`, `sysPipe_table_refused`: they are what the calls of the kernel do to it.
* `runcmd` — the programs that are started, each with its descriptors.
* `wired` — what a command means: each side of `|` has its end of the pipe in place of its output
  or input, and nothing else is different.
* `runcmd_wires` — from a table with a standard input and output, that is what happens to every
  line the parser accepts.
-/

namespace Xv6.User.Sh

open Function

/-- The open files of a process. -/
abbrev Table (β : Type) : Type := Fin NOFILE → Option β

section Calls

variable {β : Type}

/-- `fdalloc`: the lowest descriptor that is free. -/
def fdalloc (t : Table β) : Option (Fin NOFILE) :=
  (List.finRange NOFILE).find? fun fd => (t fd).isNone

/-- `close`. -/
def close (t : Table β) (fd : ℕ) : Table β := if h :
  fd < NOFILE then update t ⟨fd, h⟩ none else t

/-- The file of a descriptor. -/
def fileAt (t : Table β) (fd : ℕ) : Option β := if h : fd < NOFILE then t ⟨fd, h⟩ else none

/-- `dup`. -/
def dup (t : Table β) (fd : ℕ) : Table β :=
  match fileAt t fd, fdalloc t with
  | some f, some d => update t d (some f)
  | _, _ => t

/-- `pipe`, with its two ends: the table and the two descriptors, or `-1`.  It also fails if the
kernel has not got two `struct file` and a page for it. -/
def pipe (granted : Bool) (t : Table β) (rf wf : β) : Option (Table β × Fin NOFILE × Fin NOFILE) :=
  if granted then
    (fdalloc t).bind fun fd₀ =>
      (fdalloc (update t fd₀ (some rf))).map fun fd₁ =>
        (update (update t fd₀ (some rf)) fd₁ (some wf), fd₀, fd₁)
  else none

variable {t : Table β} {d : Fin NOFILE}

theorem fdalloc_eq_some_iff : fdalloc t = some d ↔ t d = none ∧ ∀ e < d, (t e).isSome := by
  rw [fdalloc, List.find?_eq_some_iff_getElem, Option.isNone_iff_eq_none]
  refine and_congr_right fun _ => ⟨?_, fun h => ⟨d, by simp, by simp, fun j hj => ?_⟩⟩
  · rintro ⟨i, hi, rfl, hlow⟩ e he
    have hlt : (e : ℕ) < i := by simpa [Fin.lt_def] using he
    simpa using hlow e hlt
  · have he := h ⟨j, hj.trans d.isLt⟩ hj
    simpa using he

theorem fdalloc_isSome (h : t d = none) : ∃ e, fdalloc t = some e := by
  rw [← Option.isSome_iff_exists, fdalloc, List.find?_isSome]
  exact ⟨d, by simp, by simp [h]⟩

end Calls

/-! ## The calls of the kernel -/

section Kernel

open Sys

variable {s s' : Files} {p : Proc.Slot} {fd : Fin NOFILE}

/-- The descriptors of a process. -/
def tableOf (s : Files) (p : Proc.Slot) : Table FileId := fun fd => s.ofile (p, fd)

theorem tableOf_setFd (s : Files) (p : Proc.Slot) (fd : Fin NOFILE) (o : Option FileId) :
    tableOf (s.setFd (p, fd) o) p = update (tableOf s p) fd o := by
  funext e
  by_cases he : e = fd
  · subst he
    simp [tableOf, Files.setFd]
  · simp [tableOf, Files.setFd, he]

theorem tableOf_congr (h : s'.ofile = s.ofile) : tableOf s' p = tableOf s p := by
  unfold tableOf
  rw [h]

theorem fdalloc_eq (f : FileId) (s : Files) : Files.fdalloc p f s =
    match fdalloc (tableOf s p) with
    | some fd => (s.setFd (p, fd) (some f), some fd)
    | none => (s, none) := by
  rw [Files.fdalloc, fdalloc]
  have hfind : ((List.finRange NOFILE).find? fun fd => decide (s.ofile (p, fd) = none)) =
      (List.finRange NOFILE).find? fun fd => (tableOf s p fd).isNone := by
    congr 1
    funext fd
    cases h : s.ofile (p, fd) <;> simp [tableOf, h]
  rw [hfind]
  cases (List.finRange NOFILE).find? fun fd => (tableOf s p fd).isNone <;> rfl

theorem argfd_eq (s : Files) (p : Proc.Slot) (fd : Fin NOFILE) :
    Files.argfd p fd s = (tableOf s p fd).map fun f => (fd, f) := by
  rw [Files.argfd, dif_pos ⟨by omega, by exact_mod_cast fd.isLt⟩]
  simp [tableOf]

theorem sysClose_table {r : ℤ} (h : Files.sysClose p fd s = .ok (s', r)) :
    tableOf s' p = close (tableOf s p) fd := by
  rw [close, dif_pos fd.isLt]
  rw [Files.sysClose, argfd_eq] at h
  cases hf : tableOf s p fd with
  | none =>
    rw [hf] at h
    cases h
    rw [update_eq_self_iff.2 hf.symm]
  | some f =>
    rw [hf] at h
    simp only [Option.map_some] at h
    cases hclose : Files.fileclose f (s.setFd (p, fd) none) with
    | error msg =>
      rw [hclose] at h
      cases h
    | ok s₁ =>
      rw [hclose] at h
      cases h
      rw [tableOf_congr (Files.fileclose_ofile hclose), tableOf_setFd]

theorem filedup_ofile {f : FileId} (h : Files.filedup f s = .ok s') : s'.ofile = s.ofile := by
  rw [Files.filedup] at h
  split_ifs at h
  cases h
  rfl

theorem sysDup_table {r : ℤ} (h : Files.sysDup p fd s = .ok (s', r)) :
    tableOf s' p = dup (tableOf s p) fd := by
  rw [dup, fileAt, dif_pos fd.isLt]
  rw [Files.sysDup, argfd_eq] at h
  cases hf : tableOf s p fd with
  | none =>
    rw [hf] at h
    cases h
    rfl
  | some f =>
    rw [hf] at h
    simp only [Option.map_some, fdalloc_eq] at h
    cases hd : fdalloc (tableOf s p) with
    | none =>
      rw [hd] at h
      cases h
      rfl
    | some d =>
      rw [hd] at h
      simp only at h
      cases hdup : Files.filedup f (s.setFd (p, d) (some f)) with
      | error msg =>
        rw [hdup] at h
        cases h
      | ok s₁ =>
        rw [hdup] at h
        cases h
        rw [tableOf_congr (filedup_ofile hdup), tableOf_setFd]

theorem sysPipe_table {valid memory : Bool} (h : Files.sysPipe p valid memory s = .ok (s', 0)) :
    ∃ rf wf d₀ d₁, pipe true (tableOf s p) rf wf = some (tableOf s' p, d₀, d₁) := by
  cases valid with
  | false => cases h
  | true =>
    rw [Files.sysPipe, if_pos rfl] at h
    cases halloc : Files.pipealloc memory s with
    | error msg =>
      rw [halloc] at h
      cases h
    | ok out =>
      obtain ⟨s₁, fs⟩ := out
      have htable : tableOf s₁ p = tableOf s p := tableOf_congr (Files.pipealloc_ofile halloc)
      rw [halloc] at h
      cases fs with
      | none => cases h
      | some fs =>
        obtain ⟨rf, wf⟩ := fs
        dsimp only [bind, Except.bind] at h
        rw [fdalloc_eq, htable] at h
        cases hd₀ : fdalloc (tableOf s p) with
        | none =>
          rw [hd₀] at h
          simp only at h
          cases hc : Files.fileclose rf s₁ with
          | error msg =>
            rw [hc] at h
            cases h
          | ok s₂ =>
            rw [hc] at h
            change (Files.fileclose wf s₂).bind _ = _ at h
            cases hc' : Files.fileclose wf s₂ with
            | error msg =>
              rw [hc'] at h
              cases h
            | ok s₃ =>
              rw [hc'] at h
              cases h
        | some d₀ =>
          rw [hd₀] at h
          simp only [fdalloc_eq, tableOf_setFd, htable] at h
          cases hd₁ : fdalloc (update (tableOf s p) d₀ (some rf)) with
          | none =>
            rw [hd₁] at h
            simp only at h
            cases hc : Files.fileclose rf ((s₁.setFd (p, d₀) (some rf)).setFd (p, d₀) none) with
            | error msg =>
              rw [hc] at h
              cases h
            | ok s₂ =>
              rw [hc] at h
              change (Files.fileclose wf s₂).bind _ = _ at h
              cases hc' : Files.fileclose wf s₂ with
              | error msg =>
                rw [hc'] at h
                cases h
              | ok s₃ =>
                rw [hc'] at h
                cases h
          | some d₁ =>
            rw [hd₁] at h
            cases h
            refine ⟨rf, wf, d₀, d₁, ?_⟩
            rw [pipe, if_pos rfl, hd₀, Option.bind_some, hd₁, Option.map_some, tableOf_setFd,
              tableOf_setFd, htable]

/-- `sys_pipe` for which there is no `struct file`, or no page. -/
theorem sysPipe_table_refused {memory : Bool} (h : Files.pipealloc memory s = .ok (s', none)) :
    Files.sysPipe p true memory s = .ok (s', -1) ∧ tableOf s' p = tableOf s p := by
  refine ⟨?_, tableOf_congr (Files.pipealloc_ofile h)⟩
  rw [Files.sysPipe, if_pos rfl, h]
  rfl

end Kernel

/-! ## Commands -/

/-- What a descriptor stands for: a file, or an end of the pipe of a node of the command. -/
inductive Obj (α : Type) where
  | file (f : α)
  | readEnd (node : List Bool)
  | writeEnd (node : List Bool)
  deriving DecidableEq

/-- A program that is started: its arguments and its descriptors. -/
abbrev Started (α : Type) : Type := List (List UInt8) × Table (Obj α)

section Commands

variable {α : Type}

/-- What the kernel answers: the files that `open` opens, and the nodes whose pipe it has a page
and two `struct file` for. -/
structure Answers (α : Type) where
  opens : List UInt8 → ℕ → Option α
  pipes : List Bool → Bool

/-- `runcmd`, where no `fork` and no `exec` fails: what is started. -/
def runcmd (k : Answers α) : Cmd → List Bool → Table (Obj α) → List (Started α)
  | .exec argv, _, t => if argv = [] then [] else [(argv, t)]
  | .redir cmd file mode fd, node, t =>
    match k.opens file mode, fdalloc (close t fd) with
    | some f, some d => runcmd k cmd node (update (close t fd) d (some (.file f)))
    -- `open failed`
    | _, _ => []
  | .list left right, node, t =>
    runcmd k left (node ++ [false]) t ++ runcmd k right (node ++ [true]) t
  | .pipe left right, node, t =>
    match pipe (k.pipes node) t (.readEnd node) (.writeEnd node) with
    -- `panic("pipe")`
    | none => []
    | some (t, p₀, p₁) =>
      runcmd k left (node ++ [false]) (close (close (dup (close t 1) p₁) p₀) p₁) ++
        runcmd k right (node ++ [true]) (close (close (dup (close t 0) p₀) p₀) p₁)
  | .back cmd, node, t => runcmd k cmd (node ++ [false]) t

/-- The standard input. -/
def stdin : Fin NOFILE := ⟨0, by decide⟩

/-- The standard output. -/
def stdout : Fin NOFILE := ⟨1, by decide⟩

/-- The descriptor of a redirection, as the parser makes them. -/
def stream (fd : ℕ) : Fin NOFILE := if fd = 0 then stdin else stdout

/-- What a command means.  A command whose file cannot be opened, or whose pipe cannot be made,
starts nothing. -/
def wired (k : Answers α) : Cmd → List Bool → Table (Obj α) → List (Started α)
  | .exec argv, _, t => if argv = [] then [] else [(argv, t)]
  | .redir cmd file mode fd, node, t =>
    match k.opens file mode with
    | some f => wired k cmd node (update t (stream fd) (some (.file f)))
    | none => []
  | .list left right, node, t =>
    wired k left (node ++ [false]) t ++ wired k right (node ++ [true]) t
  | .pipe left right, node, t =>
    if k.pipes node then
      wired k left (node ++ [false]) (update t stdout (some (.writeEnd node))) ++
        wired k right (node ++ [true]) (update t stdin (some (.readEnd node)))
    else []
  | .back cmd, node, t => wired k cmd (node ++ [false]) t

/-- Redirections are of the standard input and output. -/
def Cmd.Standard : Cmd → Prop
  | .exec _ => True
  | .redir cmd _ _ fd => fd ≤ 1 ∧ cmd.Standard
  | .list left right => left.Standard ∧ right.Standard
  | .pipe left right => left.Standard ∧ right.Standard
  | .back cmd => cmd.Standard

/-- The two streams are open, and there is room for a pipe. -/
structure Ready {β : Type} (t : Table β) : Prop where
  input : (t stdin).isSome
  output : (t stdout).isSome
  room : ∃ a b, a ≠ b ∧ t a = none ∧ t b = none

variable {β : Type} {t : Table β} {d : Fin NOFILE} {f : β} {k : Answers α}

/-- With another file in place of one that is open. -/
theorem Ready.update (h : Ready t) (hd : (t d).isSome) (f : β) :
    Ready (Function.update t d (some f)) := by
  have hkeep : ∀ e, (t e).isSome → (Function.update t d (some f) e).isSome := by
    intro e he
    by_cases hed : e = d
    · subst hed
      simp
    · rwa [Function.update_of_ne hed]
  have hfree : ∀ e, t e = none → Function.update t d (some f) e = none := by
    intro e he
    rw [Function.update_of_ne]
    · exact he
    · rintro rfl
      simp [he] at hd
  obtain ⟨a, b, hab, ha, hb⟩ := h.room
  exact ⟨hkeep _ h.input, hkeep _ h.output, a, b, hab, hfree a ha, hfree b hb⟩

theorem close_val (d : Fin NOFILE) : close t d = update t d none := dif_pos d.isLt

theorem fileAt_val (d : Fin NOFILE) : fileAt t d = t d := dif_pos d.isLt

/-- The lowest descriptor after one of the streams has been closed is that one. -/
theorem fdalloc_close (hin : (t stdin).isSome) {d : Fin NOFILE} (hd : (d : ℕ) ≤ 1) :
    fdalloc (update t d none) = some d := by
  refine fdalloc_eq_some_iff.2 ⟨update_self .., fun e he => ?_⟩
  have hzero : e = stdin := Fin.ext (by change (e : ℕ) = 0; have := Fin.lt_def.1 he; omega)
  rw [update_of_ne he.ne, hzero]
  exact hin

/-- `close`, `dup` and the two `close`: the end of the pipe is the stream, and nothing else. -/
theorem rewire {p₀ p₁ q : Fin NOFILE} (rf wf : β) (hin : (t stdin).isSome) (hd : (d : ℕ) ≤ 1)
    (h₀ : t p₀ = none) (h₁ : t p₁ = none) (hin₀ : p₀ ≠ stdin) (hin₁ : p₁ ≠ stdin) (hd₀ : d ≠ p₀)
      (hd₁ : d ≠ p₁) (hq : update (update t p₀ (some rf)) p₁ (some wf) q = some f) (hdq : q ≠ d) :
    close (close (dup (close (update (update t p₀ (some rf)) p₁ (some wf)) d) q)
      p₀) p₁ =
      update t d (some f) := by
  have hopen : (update (update t p₀ (some rf)) p₁ (some wf) stdin).isSome := by
    rwa [update_of_ne hin₁.symm, update_of_ne hin₀.symm]
  have hfile :
    fileAt (update (update (update t p₀ (some rf)) p₁ (some wf)) d none)
    q =
      some f := by
    rw [fileAt_val, update_of_ne hdq]
    exact hq
  have hdup : dup (close (update (update t p₀ (some rf)) p₁ (some wf)) d) q =
      update (update (update (update t p₀ (some rf)) p₁
        (some wf)) d none) d (some f) := by
    rw [close_val, dup, hfile, fdalloc_close hopen hd]
  rw [hdup]
  simp only [close_val]
  funext e
  by_cases he₁ : e = p₁
  · subst he₁
    rw [update_self, update_of_ne hd₁.symm, h₁]
  · rw [update_of_ne he₁]
    by_cases he₀ : e = p₀
    · subst he₀
      rw [update_self, update_of_ne hd₀.symm, h₀]
    · rw [update_of_ne he₀]
      by_cases hed : e = d
      · subst hed
        rw [update_self, update_self]
      · rw [update_of_ne hed, update_of_ne hed, update_of_ne hed, update_of_ne he₁,
          update_of_ne he₀]

/-- What `pipe` does where there is room. -/
theorem pipe_of_ready (h : Ready t) (rf wf : β) : ∃ p₀ p₁, p₀ ≠ p₁ ∧ t p₀ = none ∧ t p₁ = none ∧
    pipe true t rf wf = some (update (update t p₀ (some rf)) p₁ (some wf),
      p₀, p₁) := by
  obtain ⟨a, b, hab, ha, hb⟩ := h.room
  obtain ⟨p₀, hp₀⟩ := fdalloc_isSome ha
  have hfree₀ := (fdalloc_eq_some_iff.1 hp₀).1
  have hother : ∃ c, update t p₀ (some rf) c = none := by
    by_cases hap : a = p₀
    · exact ⟨b, by rw [update_of_ne (by rw [← hap]; exact hab.symm)]; exact hb⟩
    · exact ⟨a, by rw [update_of_ne hap]; exact ha⟩
  obtain ⟨c, hc⟩ := hother
  obtain ⟨p₁, hp₁⟩ := fdalloc_isSome hc
  have hfree₁ := (fdalloc_eq_some_iff.1 hp₁).1
  have hne : p₁ ≠ p₀ := by
    rintro rfl
    simp at hfree₁
  rw [update_of_ne hne] at hfree₁
  exact ⟨p₀, p₁, hne.symm, hfree₀, hfree₁, by rw [pipe, if_pos rfl, hp₀, Option.bind_some,
    hp₁, Option.map_some]⟩

theorem runcmd_pipe {left right : Cmd} {node : List Bool} {t u v w : Table (Obj α)}
    {p₀ p₁ : Fin NOFILE}
    (hpipe : pipe (k.pipes node) t (.readEnd node) (.writeEnd node) = some (u, p₀, p₁))
    (hleft : close (close (dup (close u stdout) p₁) p₀) p₁ = v)
      (hright : close (close (dup (close u stdin) p₀) p₀) p₁ = w) :
    runcmd k (.pipe left right) node t =
      runcmd k left (node ++ [false]) v ++ runcmd k right (node ++ [true]) w := by
  subst hleft hright
  rw [runcmd, hpipe]
  rfl

/-- Each side gets its end of the pipe, and the descriptors that are no streams stay. -/
theorem runcmd_eq_wired (cmd : Cmd) (node : List Bool) (t : Table (Obj α)) (hcmd : cmd.Standard)
    (ht : Ready t) :
    runcmd k cmd node t = wired k cmd node t ∧
      ∀ q ∈ runcmd k cmd node t, ∀ d, d ≠ stdin → d ≠ stdout → q.2 d = t d := by
  induction cmd generalizing node t with
  | exec argv =>
    refine ⟨rfl, fun q hq d _ _ => ?_⟩
    rw [runcmd] at hq
    split_ifs at hq
    · cases hq
    · rw [List.mem_singleton.1 hq]
  | redir cmd file mode fd ih =>
    rw [runcmd, wired]
    have hstream : close t fd = update t (stream fd) none ∧
      ((stream fd : Fin NOFILE) : ℕ) ≤ 1 ∧
        (t (stream fd)).isSome ∧ (stream fd = stdin ∨ stream fd = stdout) := by
      rcases Nat.le_one_iff_eq_zero_or_eq_one.1 hcmd.1 with rfl | rfl
      · exact ⟨close_val stdin, by decide, ht.input, Or.inl rfl⟩
      · exact ⟨close_val stdout, by decide, ht.output, Or.inr rfl⟩
    obtain ⟨hclose, hle, hopen, hor⟩ := hstream
    rw [hclose, fdalloc_close ht.input hle]
    cases k.opens file mode with
    | none => exact ⟨rfl, fun q hq => by cases hq⟩
    | some f =>
      simp only [update_idem]
      obtain ⟨heq, hrest⟩ := ih node _ hcmd.2 (ht.update hopen (.file f))
      refine ⟨heq, fun q hq d hin hout => ?_⟩
      rw [hrest q hq d hin hout, update_of_ne]
      rcases hor with hs | hs <;> rw [hs] <;> assumption
  | pipe left right ihl ihr =>
    cases hgranted : k.pipes node with
    | false =>
      rw [runcmd, wired, hgranted, pipe, if_neg Bool.false_ne_true, if_neg Bool.false_ne_true]
      exact ⟨rfl, fun q hq => by cases hq⟩
    | true => ?_
    obtain ⟨p₀, p₁, hne, h₀, h₁, hpipe⟩ := pipe_of_ready ht (.readEnd node) (.writeEnd node)
    have hopen : ∀ {d e : Fin NOFILE}, (t d).isSome → t e = none → d ≠ e := by
      rintro d e hd he rfl
      simp [he] at hd
    have hleft := rewire (q := p₁) (d := stdout) (Obj.readEnd node) (Obj.writeEnd node) ht.input
      le_rfl h₀ h₁
      (hopen ht.input h₀).symm (hopen ht.input h₁).symm (hopen ht.output h₀) (hopen ht.output h₁)
      (update_self ..) (hopen ht.output h₁).symm
    have hright := rewire (q := p₀) (d := stdin) (Obj.readEnd node) (Obj.writeEnd node) ht.input
      (Nat.zero_le _)
      h₀ h₁ (hopen ht.input h₀).symm (hopen ht.input h₁).symm (hopen ht.input h₀)
        (hopen ht.input h₁)
      (by rw [update_of_ne hne, update_self]) (hopen ht.input h₀).symm
    have hl := ihl (node ++ [false]) _ hcmd.1 (ht.update ht.output (Obj.writeEnd node))
    have hr := ihr (node ++ [true]) _ hcmd.2 (ht.update ht.input (Obj.readEnd node))
    rw [← hgranted] at hpipe
    rw [runcmd_pipe hpipe hleft hright, wired, if_pos hgranted, hl.1, hr.1]
    refine ⟨rfl, fun q hq d hin hout => ?_⟩
    rw [← hl.1, ← hr.1] at hq
    rcases List.mem_append.1 hq with hq | hq
    · rw [hl.2 q hq d hin hout, update_of_ne hout]
    · rw [hr.2 q hq d hin hout, update_of_ne hin]
  | list left right ihl ihr =>
    have hl := ihl (node ++ [false]) t hcmd.1 ht
    have hr := ihr (node ++ [true]) t hcmd.2 ht
    rw [runcmd, wired, hl.1, hr.1]
    refine ⟨rfl, fun q hq => ?_⟩
    rw [← hl.1, ← hr.1] at hq
    rcases List.mem_append.1 hq with hq | hq
    · exact hl.2 q hq
    · exact hr.2 q hq
  | back cmd ih =>
    rw [runcmd, wired]
    exact ih (node ++ [false]) t hcmd ht

/-! ## What the parser makes -/

theorem Standard.push {cmd : Cmd} (h : cmd.Standard) (w : List UInt8) : (cmd.push w).Standard := by
  induction cmd with
  | exec argv => trivial
  | redir cmd file mode fd ih => exact ⟨h.1, ih h.2⟩
  | pipe left right => exact h
  | list left right => exact h
  | back cmd => exact h

theorem standard_redirect {cmd : Cmd} (h : cmd.Standard) (tok : UInt8) (file : List UInt8) :
    (redirect tok cmd file).Standard := by
  rw [redirect]
  split_ifs
  · exact ⟨Nat.zero_le _, h⟩
  · exact ⟨le_rfl, h⟩
  · exact ⟨le_rfl, h⟩
  · exact h

theorem standard_parseredirs {n : ℕ} {cmd : Cmd} {s : Cursor} {r : Cmd × Cursor} (h : cmd.Standard)
    (hr : parseredirs n cmd s = .ok r) : r.1.Standard := by
  induction n generalizing cmd s with
  | zero => cases hr
  | succ n ih =>
    simp only [parseredirs] at hr
    split_ifs at hr
    · exact ih (standard_redirect h _ _) hr
    · cases hr
      exact h

theorem standard_parsebacks {n : ℕ} {cmd : Cmd} {s : Cursor} {r : Cmd × Cursor} (h : cmd.Standard)
    (hr : parsebacks n cmd s = .ok r) : r.1.Standard := by
  induction n generalizing cmd s with
  | zero => cases hr
  | succ n ih =>
    rw [parsebacks] at hr
    split_ifs at hr
    · exact ih (show (Cmd.back cmd).Standard from h) hr
    · cases hr
      exact h

theorem standard_parseargs {n argc : ℕ} {cmd : Cmd} {s : Cursor} {r : Cmd × Cursor}
    (h : cmd.Standard) (hr : parseargs n argc cmd s = .ok r) : r.1.Standard := by
  induction n generalizing argc cmd s with
  | zero => cases hr
  | succ n ih =>
    simp only [parseargs] at hr
    split_ifs at hr
    · cases hr
      exact h
    · cases hr
      exact h
    · obtain ⟨r₁, hr₁, hr⟩ := Lib.bind_eq_ok.1 hr
      exact ih (standard_parseredirs (Standard.push h _) hr₁) hr

/-- The four procedures, by the bound on their recursion. -/
theorem standard_parse (n : ℕ) (s : Cursor) (r : Cmd × Cursor) :
    (parseline n s = .ok r → r.1.Standard) ∧ (parsepipe n s = .ok r → r.1.Standard) ∧
      (parseblock n s = .ok r → r.1.Standard) ∧ (parseexec n s = .ok r → r.1.Standard) := by
  induction n generalizing s r with
  | zero => refine ⟨?_, ?_, ?_, ?_⟩ <;> intro hr <;> cases hr
  | succ n ih =>
    refine ⟨fun hr => ?_, fun hr => ?_, fun hr => ?_, fun hr => ?_⟩
    · rw [parseline] at hr
      obtain ⟨r₁, hr₁, hr⟩ := Lib.bind_eq_ok.1 hr
      obtain ⟨r₂, hr₂, hr⟩ := Lib.bind_eq_ok.1 hr
      have h₂ := standard_parsebacks ((ih s r₁).2.1 hr₁) hr₂
      split_ifs at hr
      · obtain ⟨r₃, hr₃, hr⟩ := Lib.bind_eq_ok.1 hr
        cases hr
        exact ⟨h₂, (ih _ r₃).1 hr₃⟩
      · cases hr
        exact h₂
    · rw [parsepipe] at hr
      obtain ⟨r₁, hr₁, hr⟩ := Lib.bind_eq_ok.1 hr
      have h₁ := (ih s r₁).2.2.2 hr₁
      split_ifs at hr
      · obtain ⟨r₂, hr₂, hr⟩ := Lib.bind_eq_ok.1 hr
        cases hr
        exact ⟨h₁, (ih _ r₂).2.1 hr₂⟩
      · cases hr
        exact h₁
    · rw [parseblock] at hr
      split_ifs at hr
      obtain ⟨r₁, hr₁, hr⟩ := Lib.bind_eq_ok.1 hr
      have h₁ := (ih _ r₁).1 hr₁
      split_ifs at hr
      exact standard_parseredirs h₁ hr
    · rw [parseexec] at hr
      split_ifs at hr
      · exact (ih _ r).2.2.1 hr
      · obtain ⟨r₁, hr₁, hr⟩ := Lib.bind_eq_ok.1 hr
        exact standard_parseargs (standard_parseredirs (show (Cmd.exec []).Standard from trivial)
          hr₁) hr

theorem standard_parsecmd {fuel : ℕ} {buf : List UInt8} {cmd : Cmd}
    (h : parsecmd fuel buf = .ok cmd) : cmd.Standard := by
  rw [parsecmd] at h
  obtain ⟨r, hr, h⟩ := Lib.bind_eq_ok.1 h
  split_ifs at h
  cases h
  exact (standard_parse fuel _ r).1 hr

/-- **The shell wires its pipelines.**  For every line that the parser accepts, from every table of
descriptors with a standard input and output and two free places, and whichever files can be opened
and pipes be made: the programs that are started are those of the command, but for the parts whose
file or pipe was refused; each has the end of the pipe it is to have, or the file it is redirected
to, in place of its input or output, and its other descriptors are those of the shell; no end of a
pipe is anywhere else. -/
theorem runcmd_wires {fuel : ℕ} {buf : List UInt8} {cmd : Cmd} (node : List Bool)
    (t : Table (Obj α)) (hcmd : parsecmd fuel buf = .ok cmd) (ht : Ready t) :
    runcmd k cmd node t = wired k cmd node t ∧
      ∀ q ∈ runcmd k cmd node t, ∀ d, d ≠ stdin → d ≠ stdout → q.2 d = t d :=
  runcmd_eq_wired cmd node t (standard_parsecmd hcmd) ht

/-- The console on the first three descriptors. -/
def console : Table (Obj Unit) := fun d => if (d : ℕ) < 3 then some (.file ()) else none

/-- `a|b;c|d`, and the kernel has files for the first pipe only. -/
theorem runcmd_wires_two : ∃ cmd, parsecmd 20 [97, 124, 98, 59, 99, 124, 100] = .ok cmd ∧
    runcmd ⟨fun _ _ => none, fun node => node == [false]⟩ cmd [] console =
      [([[97]], update console stdout (some (.writeEnd [false]))),
        ([[98]], update console stdin (some (.readEnd [false])))] := by
  have hparse : parsecmd 20 [97, 124, 98, 59, 99, 124, 100] = .ok (.list
    (.pipe (.exec [[97]]) (.exec [[98]])) (.pipe (.exec [[99]]) (.exec [[100]]))) := by decide
  have hready : Ready console :=
    ⟨rfl, rfl, ⟨3, by decide⟩, ⟨4, by decide⟩, by decide, rfl, rfl⟩
  exact ⟨_, hparse, (runcmd_wires [] console hparse hready).1⟩

end Commands

end Xv6.User.Sh
