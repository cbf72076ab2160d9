import Xv6.Lib.Part
import Xv6.Mm.Exhaustion

/-!
# Tearing down an address space

`freevm` frees a tree while it walks it, and `kfree` fills what it gets with junk.  The order
in which it reads and frees is that of a log kept beside the run.

* `freevmWith` — the text of `freevm`, over any way to read an entry and to free a frame.
* `accesses` — what it reads and frees, in order, as a function of the tree.
* `freevm_frees_each_once` — the frames of the user half, each once, none read after it is free.
-/

namespace Xv6.Mm

open Lib Prog List

/-! ## The walk, and what it touches -/

section With

variable {σ : Type} (entryOf : ℕ → ℕ → Prog σ ℕ) (free : ℕ → Prog σ Unit)

/-- `freeLevel`, with the entries read by `entryOf` and the frames freed by `free`. -/
def freeLevelWith : ℕ → ℕ → Prog σ Unit
  | 0, t => free t
  | n + 1, t => do
    Prog.forEach (List.range NPDENTRIES) fun i => do
      let e ← entryOf t i
      if present e then freeLevelWith n (frameOf e) else pure ()
    free t

/-- `freevm`, likewise. -/
def freevmWith (pml4 : Option ℕ) : Prog σ Unit :=
  match pml4 with
  | none => .panic "freevm: no pgdir"
  | some t => do
    Prog.forEach (List.range (NPDENTRIES / 2)) fun i => do
      let e ← entryOf t i
      if present e then freeLevelWith entryOf free 3 (frameOf e) else pure ()
    free t

end With

/-- Something `freevm` does to a frame. -/
inductive Access where
  /-- It reads an entry of the table. -/
  | read (t : ℕ)
  /-- It passes the frame to `kfree`. -/
  | free (f : ℕ)
  deriving DecidableEq

/-- The frame that is freed, if one is. -/
def Access.freed : Access → Option ℕ
  | .read _ => none
  | .free f => some f

/-- Memory, and what has been done to it. -/
structure Watched where
  mem : Mem
  log : List Access

/-- Write an access into the log. -/
def Watched.note (a : Access) (s : Watched) : Watched := { s with log := s.log ++ [a] }

/-- Replace the memory. -/
def Watched.put (m : Mem) (s : Watched) : Watched := { s with mem := m }

/-- Read an entry, and say so. -/
def readEntry (t i : ℕ) : Prog Watched ℕ := do
  .change (Watched.note (.read t))
  .onPart Watched.mem Watched.put (.look fun m => (m.ram t).entry i)

/-- Free a frame, and say so. -/
def freeFrame (f : ℕ) : Prog Watched Unit := do
  .change (Watched.note (.free f))
  .onPart Watched.mem Watched.put (kfree f)

variable {ram : ℕ → Page} {m : Mem} {s : Watched} {n r t f i : ℕ} {is : List ℕ} {p q : List ℕ}
  {E : String → Prop}

theorem isPart_mem : Prog.IsPart Watched.mem Watched.put :=
  ⟨fun _ _ => rfl, fun _ => rfl, fun _ _ _ => rfl⟩

theorem erases_readEntry :
    Prog.Erases Watched.mem (readEntry t i) (.look fun m => (m.ram t).entry i) :=
  .change (u := Watched.note (.read t)) (fun _ => rfl) (.onPart isPart_mem _)

theorem erases_freeFrame : Prog.Erases Watched.mem (freeFrame f) (kfree f) :=
  .change (u := Watched.note (.free f)) (fun _ => rfl) (.onPart isPart_mem _)

theorem erases_freeLevel (n : ℕ) : ∀ t,
    Prog.Erases Watched.mem (freeLevelWith readEntry freeFrame n t) (freeLevel n t) := by
  induction n with
  | zero => exact fun t => erases_freeFrame
  | succ n ih =>
    intro t
    refine .bind (.forEach fun i => .bind erases_readEntry fun e => ?_) fun _ => erases_freeFrame
    split_ifs
    · exact ih (frameOf e)
    · exact .ret ()

/-- The watched `freevm` does to memory what `freevm` does. -/
theorem erases_freevm :
    Prog.Erases Watched.mem (freevmWith readEntry freeFrame (some r)) (freevm (some r)) := by
  refine .bind (.forEach fun i => .bind erases_readEntry fun e => ?_) fun _ => erases_freeFrame
  split_ifs
  · exact erases_freeLevel 3 (frameOf e)
  · exact .ret ()

/-! ## The log as a function of the tree -/

/-- What a loop over the entries `is` of `t` does, if `below` is what it does for a child. -/
def loopAccesses (ram : ℕ → Page) (below : ℕ → List Access) (t : ℕ) (is : List ℕ) : List Access :=
  is.flatMap fun i => .read t :: ((child ram t i).map below).getD []

/-- What `freeLevel` does. -/
def accesses (ram : ℕ → Page) : ℕ → ℕ → List Access
  | 0, t => [.free t]
  | n + 1, t => loopAccesses ram (accesses ram n) t (List.range NPDENTRIES) ++ [.free t]

/-- What `freevm` does. -/
def treeAccesses (ram : ℕ → Page) (r : ℕ) : List Access :=
  loopAccesses ram (accesses ram 3) r (List.range (NPDENTRIES / 2)) ++ [.free r]

/-- The frames under some entries. -/
def framesBelow (ram : ℕ → Page) (n t : ℕ) (is : List ℕ) : List ℕ :=
  is.flatMap fun i => ((child ram t i).map (frames ram n)).getD []

theorem frames_succ : frames ram (n + 1) t = framesBelow ram n t (List.range NPDENTRIES) ++ [t] :=
  rfl

theorem treeFrames_eq : treeFrames ram r = framesBelow ram 3 r
    (List.range (NPDENTRIES / 2)) ++ [r] := rfl

theorem framesBelow_cons : framesBelow ram n t (i :: is) =
    ((child ram t i).map (frames ram n)).getD [] ++ framesBelow ram n t is := flatMap_cons

theorem loopAccesses_cons {below : ℕ → List Access} : loopAccesses ram below t (i :: is) =
    .read t :: (((child ram t i).map below).getD [] ++ loopAccesses ram below t is) := by
  rw [loopAccesses, flatMap_cons, cons_append, loopAccesses]

/-- The frames freed are those of the tree, in their order. -/
theorem freed_loopAccesses (h : ∀ c, (accesses ram n c).filterMap Access.freed = frames ram n c) :
    (loopAccesses ram (accesses ram n) t is).filterMap Access.freed = framesBelow ram n t is := by
  induction is with
  | nil => rfl
  | cons i is ih =>
    rw [loopAccesses_cons, framesBelow_cons, filterMap_cons_none rfl, filterMap_append, ih]
    cases child ram t i with
    | none => rfl
    | some c => rw [Option.map_some, Option.map_some, Option.getD_some, Option.getD_some, h c]

theorem freed_accesses (n : ℕ) :
    ∀ t, (accesses ram n t).filterMap Access.freed = frames ram n t := by
  induction n with
  | zero => exact fun t => rfl
  | succ n ih =>
    intro t
    rw [accesses, filterMap_append, freed_loopAccesses ih, frames_succ]
    rfl

theorem freed_treeAccesses : (treeAccesses ram r).filterMap Access.freed = treeFrames ram r := by
  rw [treeAccesses, filterMap_append, freed_loopAccesses (freed_accesses 3), treeFrames_eq]
  rfl

/-! ## Nothing is read after it is free -/

/-- No frame is read after it has been freed. -/
def Orderly (log : List Access) : Prop := log.Pairwise fun x y => ∀ f, x = .free f → y ≠ .read f

theorem mem_of_freed {log : List Access} (h : .free f ∈ log) : f ∈ log.filterMap Access.freed :=
  mem_filterMap.2 ⟨_, h, rfl⟩

/-- What a loop reads is its table and the tables below. -/
theorem read_mem_loop (h : ∀ c, .read f ∈ accesses ram n c → f ∈ frames ram n c)
    (hf : .read f ∈ loopAccesses ram (accesses ram n) t is) :
      f ∈ framesBelow ram n t is ++ [t] := by
  obtain ⟨i, hi, hin⟩ := mem_flatMap.1 hf
  rcases mem_cons.1 hin with he | hin
  · cases he
    simp
  · cases hc : child ram t i with
    | none => simp [hc] at hin
    | some c =>
      rw [hc] at hin
      refine mem_append_left _ (mem_flatMap.2 ⟨i, hi, ?_⟩)
      rw [hc]
      exact h c hin

theorem read_mem_accesses (n : ℕ) : ∀ t, .read f ∈ accesses ram n t → f ∈ frames ram n t := by
  induction n with
  | zero =>
    intro t hf
    cases mem_singleton.1 hf
  | succ n ih =>
    intro t hf
    rcases mem_append.1 hf with hf | hf
    · exact read_mem_loop ih hf
    · cases mem_singleton.1 hf

theorem orderly_append_free {log : List Access} (h : Orderly log) : Orderly (log ++ [.free t]) := by
  refine pairwise_append.2 ⟨h, pairwise_singleton _ _, fun x _ y hy f _ he => ?_⟩
  cases (mem_singleton.1 hy).symm.trans he

/-- What is freed below one entry is not read below the next ones. -/
theorem orderly_loop (h : ∀ c, (frames ram n c).Nodup → Orderly (accesses ram n c))
    (hnodup : (framesBelow ram n t is ++ [t]).Nodup) :
      Orderly (loopAccesses ram (accesses ram n) t is) := by
  induction is with
  | nil => exact List.Pairwise.nil
  | cons i is ih =>
    rw [framesBelow_cons, append_assoc] at hnodup
    obtain ⟨hsub, hrest, hdisj⟩ := nodup_append.1 hnodup
    rw [loopAccesses_cons]
    refine pairwise_cons.2 ⟨fun y _ f he => (nomatch he), ?_⟩
    refine pairwise_append.2 ⟨?_, ih hrest, fun x hx y hy f hxf hyf => ?_⟩
    · cases hc : child ram t i with
      | none => exact List.Pairwise.nil
      | some c =>
        rw [hc] at hsub
        exact h c hsub
    · subst hxf hyf
      refine hdisj f ?_ f (read_mem_loop (read_mem_accesses n) hy) rfl
      cases hc : child ram t i with
      | none => simp [hc] at hx
      | some c =>
        rw [hc] at hx
        rw [Option.map_some, Option.getD_some, ← freed_accesses n c]
        exact mem_of_freed hx

theorem orderly_accesses (n : ℕ) : ∀ t, (frames ram n t).Nodup → Orderly (accesses ram n t) := by
  induction n with
  | zero => exact fun t _ => pairwise_singleton _ _
  | succ n ih => exact fun t h => orderly_append_free (orderly_loop ih h)

theorem orderly_treeAccesses (h : (treeFrames ram r).Nodup) : Orderly (treeAccesses ram r) :=
  orderly_append_free (orderly_loop (orderly_accesses 3) h)

/-! ## The log that is written -/

/-- The frames `fs` can be freed and have the contents `ram` gives them. -/
structure Intact (ram : ℕ → Page) (fs : List ℕ) (s : Watched) : Prop where
  /-- Distinct. -/
  nodup : fs.Nodup
  /-- Given to the allocator. -/
  given : ∀ g ∈ fs, s.mem.Given g
  /-- As they were. -/
  same : ∀ g ∈ fs, s.mem.ram g = ram g

/-- From `s` to `s'`, the accesses `log` have been made, and only the frames `fs` have changed. -/
structure Did (log : List Access) (fs : List ℕ) (s s' : Watched) : Prop where
  log : s'.log = s.log ++ log
  same : ∀ g, g ∉ fs → s'.mem.ram g = s.mem.ram g
  kernelEnd : s'.mem.kernelEnd = s.mem.kernelEnd

variable {fs fs' : List ℕ} {log log' : List Access} {s' s'' : Watched}

theorem Did.trans (h : Did log fs s s') (h' : Did log' fs' s' s'') :
    Did (log ++ log') (fs ++ fs') s s'' where
  log := by rw [h'.log, h.log, append_assoc]
  same g hg := by
    rw [mem_append, not_or] at hg
    rw [h'.same g hg.2, h.same g hg.1]
  kernelEnd := h'.kernelEnd.trans h.kernelEnd

theorem Intact.left (h : Intact ram (fs ++ fs') s) : Intact ram fs s where
  nodup := (nodup_append.1 h.nodup).1
  given g hg := h.given g (mem_append_left fs' hg)
  same g hg := h.same g (mem_append_left fs' hg)

/-- What is left is intact after the first frames have been freed. -/
theorem Intact.right (fs : List ℕ) (h : Intact ram (fs ++ fs') s) (hd : Did log fs s s') :
    Intact ram fs' s' where
  nodup := (nodup_append.1 h.nodup).2.1
  given g hg := by
    have hgiven := h.given g (mem_append_right fs hg)
    exact ⟨by rw [hd.kernelEnd]; exact hgiven.1, hgiven.2⟩
  same g hg := by
    rw [hd.same g fun hin => (nodup_append.1 h.nodup).2.2 g hin g hg rfl]
    exact h.same g (mem_append_right fs hg)

theorem wp_freeFrame (hf : s.mem.Given f) :
    (freeFrame f).wp E (fun _ s' => Did [.free f] [f] s s') s := by
  simp only [freeFrame, bind_eq, wp_bind, wp_change]
  rw [Prog.wp_onPart isPart_mem]
  refine wp_kfree hf ⟨rfl, fun g hg => ?_, rfl⟩
  exact Function.update_of_ne (fun he => hg (mem_singleton.2 he)) _ _

theorem wp_readEntry {Q : ℕ → Watched → Prop} (hQ : Q ((s.mem.ram t).entry i) (s.note (.read t))) :
    (readEntry t i).wp E Q s := by
  simp only [readEntry, bind_eq, wp_bind, wp_change]
  rw [Prog.wp_onPart isPart_mem, wp_look]
  exact hQ

theorem did_read : Did [.read t] [] s (s.note (.read t)) := ⟨rfl, fun _ _ => rfl, rfl⟩

/-- One loop, over the entries `is` of the table `t`: nothing it reads has been freed. -/
theorem wp_watchedEntries {body : ℕ → Prog Watched Unit}
    (hbody : ∀ c s, Intact ram (frames ram n c) s →
      (body c).wp E (fun _ s' => Did (accesses ram n c) (frames ram n c) s s') s)
    (h : Intact ram (framesBelow ram n t is ++ [t]) s) :
    (Prog.forEach is fun i => do
      let e ← readEntry t i
      if present e then body (frameOf e) else pure ()).wp E
      (fun _ s' => Did (loopAccesses ram (accesses ram n) t is) (framesBelow ram n t is) s s')
        s := by
  induction is generalizing s with
  | nil => exact ⟨(List.append_nil _).symm, fun _ _ => rfl, rfl⟩
  | cons i is ih =>
    rw [framesBelow_cons] at h ⊢
    rw [loopAccesses_cons, append_assoc] at *
    simp only [Prog.forEach, bind_eq, wp_bind]
    refine wp_readEntry ?_
    rw [h.same t (by simp)]
    have h' : Intact ram _ (s.note (.read t)) := Intact.right [] h did_read
    by_cases hp : present ((ram t).entry i) = true
    · have hc : child ram t i = some (frameOf ((ram t).entry i)) := by rw [child, if_pos hp]
      rw [if_pos hp]
      rw [hc, Option.map_some, Option.getD_some] at h' ⊢
      rw [Option.map_some, Option.getD_some]
      refine wp_mono (hbody _ _ h'.left) fun _ s' hd => ?_
      exact wp_mono (ih (h'.right _ hd)) fun _ s'' hd' => did_read.trans (hd.trans hd')
    · have hc : child ram t i = none := by rw [child, if_neg hp]
      rw [if_neg hp]
      rw [hc, Option.map_none, Option.getD_none] at h' ⊢
      rw [Option.map_none, Option.getD_none]
      simp only [Prog.pure_eq, wp_ret]
      exact wp_mono (ih h') fun _ s'' hd' => did_read.trans hd'

theorem wp_watchedLevel (n : ℕ) : ∀ t s, Intact ram (frames ram n t) s →
    (freeLevelWith readEntry freeFrame n t).wp E
      (fun _ s' => Did (accesses ram n t) (frames ram n t) s s') s := by
  induction n with
  | zero => exact fun t s h => wp_freeFrame (h.given t (mem_singleton_self t))
  | succ n ih =>
    intro t s h
    rw [frames_succ] at h ⊢
    rw [freeLevelWith, bind_eq, wp_bind, accesses]
    generalize List.range NPDENTRIES = is at h ⊢
    refine wp_mono (wp_watchedEntries ih h) fun _ s' hd => ?_
    have hlast := (h.right _ hd).given t (mem_singleton_self t)
    exact wp_mono (wp_freeFrame hlast) fun _ s'' hd' => hd.trans hd'

attribute [local irreducible] frames accesses freeLevelWith in
theorem wp_watchedTree (h : Intact ram (treeFrames ram r) s) :
    (freevmWith readEntry freeFrame (some r)).wp E
      (fun _ s' => Did (treeAccesses ram r) (treeFrames ram r) s s') s := by
  rw [treeFrames_eq] at h ⊢
  rw [freevmWith, bind_eq, wp_bind, treeAccesses]
  generalize List.range (NPDENTRIES / 2) = is at h ⊢
  refine wp_mono (wp_watchedEntries (wp_watchedLevel 3) h) fun _ s' hd => ?_
  have hlast := (h.right _ hd).given r (mem_singleton_self r)
  exact wp_mono (wp_freeFrame hlast) fun _ s'' hd' => hd.trans hd'

/-! ## A process's pages, each once -/

/-- The user half is a tree of distinct frames of the allocator; entry `256` of the root is the
kernel's, which every process shares. -/
structure Private (m : Mem) (r : ℕ) : Prop where
  /-- Tables and user pages are distinct. -/
  inj : ∀ p q f, User p → User q → node m.ram r p = some f → node m.ram r q = some f → p = q
  /-- They are given to the allocator. -/
  given : ∀ p f, User p → node m.ram r p = some f → m.Given f
  /-- The kernel half. -/
  kernel : (m.ram r).entry 256 = mkEntry m.kpdpt (PTE_P ||| PTE_W)
  /-- It is no part of the user half. -/
  shared : ∀ p, User p → node m.ram r p ≠ some m.kpdpt

/-- **`freevm` frees each page of a process once, and nothing else.**  The frames it passes to
`kfree` are those of the user half, the root among them, each once; none of them is read after
that; what is reached through the kernel's entry only is not among them. -/
theorem freevm_frees_each_once (h : Private m r) : ∃ m' log,
    (freevmWith readEntry freeFrame (some r)).run ⟨m, []⟩ = .done () ⟨m', log⟩ ∧
    (freevm (some r)).run m = .done () m' ∧
    (log.filterMap Access.freed).Nodup ∧
    (∀ f, f ∈ log.filterMap Access.freed ↔ ∃ p, User p ∧ node m.ram r p = some f) ∧
    Orderly log ∧
    m.kpdpt ∉ log.filterMap Access.freed ∧
    ∀ q f, node m.ram r (256 :: q) = some f → (∀ p, User p → node m.ram r p ≠ some f) →
      f ∉ log.filterMap Access.freed := by
  have hnodup := nodup_treeFrames h.inj
  have hintact : Intact m.ram (treeFrames m.ram r) ⟨m, []⟩ := by
    refine ⟨hnodup, fun g hg => ?_, fun _ _ => rfl⟩
    obtain ⟨p, hp, hn⟩ := mem_treeFrames.1 hg
    exact h.given p g hp hn
  obtain ⟨_, ⟨m', log⟩, hrun, hdid⟩ := (wp_noPanic_iff _).1 (wp_watchedTree hintact)
  have hlog : log = treeAccesses m.ram r := hdid.log
  have hmem : ∀ f, f ∈ log.filterMap Access.freed ↔ ∃ p, User p ∧ node m.ram r p = some f := by
    intro f
    rw [hlog, freed_treeAccesses, mem_treeFrames]
  have herased := erases_freevm (r := r) ⟨m, []⟩
  rw [hrun] at herased
  refine ⟨m', log, hrun, herased.symm, ?_, hmem, ?_, fun hk => ?_, fun q f _ hout hf => ?_⟩
  · rw [hlog, freed_treeAccesses]
    exact hnodup
  · rw [hlog]
    exact orderly_treeAccesses hnodup
  · obtain ⟨p, hp, hn⟩ := (hmem _).1 hk
    exact h.shared p hp hn
  · obtain ⟨p, hp, hn⟩ := (hmem _).1 hf
    exact hout p hp hn

/-- The first process and its page: the page, its three tables and the root are freed. -/
theorem freevm_frees_first : ∃ r m m' log, (firstSpace 1024).run (bootMem 1024) = .done (some r) m ∧
    (freevmWith readEntry freeFrame (some r)).run ⟨m, []⟩ = .done () ⟨m', log⟩ ∧
    (log.filterMap Access.freed).Nodup ∧
    ∀ n ≤ 4, ∃ f, node m.ram r ((index 1).take n) = some f ∧ f ∈ log.filterMap Access.freed := by
  obtain ⟨r, m, l, hrun, hown, hone, -, -, hkpdpt, hkernel⟩ :=
    run_firstSpace (show 0 < 1024 by decide) (by decide)
  have hprivate : Private m r := by
    refine ⟨fun p q f hp hq => hown.path_inj (alone_true r) hp hq,
      fun p f hp => hown.given (alone_true r) hp, ?_, fun p hp hn => ?_⟩
    · rw [hkernel, hkpdpt]
    · exact hown.ne_zero (hown.given (alone_true r) hp hn) hkpdpt
  obtain ⟨m', log, hfree, -, hnodup, hmem, -⟩ := freevm_frees_each_once hprivate
  refine ⟨r, m, m', log, hrun, hfree, hnodup, fun n _ => ?_⟩
  have hpresent : present (pte m.ram r 1) = true := by
    by_contra hno
    rw [view, if_neg hno] at hone
    cases hone
  have hpage := node_index_of_present hpresent
  have huser : User (index 1) := user_index (by decide)
  rw [← take_append_drop n (index 1)] at hpage huser
  obtain ⟨f, hf⟩ := follow_of_append hpage
  exact ⟨f, hf, (hmem f).2 ⟨_, huser.of_append, hf⟩⟩

end Xv6.Mm
