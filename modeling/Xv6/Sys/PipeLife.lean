import Xv6.Sys.Files

/-!
# The life of a pipe

A pipe is a page that two files share, one for each end.  `fileclose` of the last reference to an
end calls `pipeclose`, which clears that end's flag in the page and passes the page to `kfree` once
both flags are clear.  The cleanups that the file table records are run here in their order.

* `kfreed_append` — a `pipeclose` frees the page if the other end was closed before.
* `Ends` — of every pipe made, each end is one file or has been closed once.
* `pipe_lifetime` — when pages are freed, and what a failed `sys_pipe` leaves behind.
-/

namespace Xv6.Sys

open Lib Proc Function List

deriving instance DecidableEq for Cleanup

/-! ## `pipeclose` -/

/-- The flags of `struct Pipe`. -/
structure PipeFlags where
  readopen : Bool
  writeopen : Bool

/-- `is_dead`. -/
def PipeFlags.isDead (x : PipeFlags) : Bool := !x.readopen && !x.writeopen

/-- The flags of each pipe, and the pages passed to `kfree` so far. -/
structure PipePages where
  pipe : ℕ → PipeFlags
  kfreed : List ℕ

/-- The flag that `pipeclose` clears. -/
def PipeFlags.close (x : PipeFlags) (writable : Bool) : PipeFlags :=
  if writable then { x with writeopen := false } else { x with readopen := false }

/-- `pipeclose`. -/
def pipeclose (m : PipePages) (n : ℕ) (writable : Bool) : PipePages where
  pipe := update m.pipe n ((m.pipe n).close writable)
  kfreed := if ((m.pipe n).close writable).isDead then m.kfreed ++ [n] else m.kfreed

/-- What a cleanup does to the pipes. -/
def Cleanup.run (m : PipePages) : Cleanup → PipePages
  | .pipeclose (some n) writable => Xv6.Sys.pipeclose m n writable
  | .pipeclose none _ => m
  | .iput _ => m

/-- The pipes after some cleanups.  Until its first `pipeclose` a page is as `pipealloc` leaves it,
with both flags set. -/
def pipePages (cs : List Cleanup) : PipePages := cs.foldl Cleanup.run ⟨fun _ => ⟨true, true⟩, []⟩

theorem pipePages_append (cs : List Cleanup) (c : Cleanup) :
    pipePages (cs ++ [c]) = c.run (pipePages cs) := by
  simp [pipePages]

/-- A flag is clear as soon as its end has been closed. -/
theorem flags_pipePages (cs : List Cleanup) (n : ℕ) :
    (pipePages cs).pipe n =
      ⟨decide (.pipeclose (some n) false ∉ cs), decide (.pipeclose (some n) true ∉ cs)⟩ := by
  induction cs using List.reverseRecOn with
  | nil => simp [pipePages]
  | append_singleton cs c ih =>
    rw [pipePages_append]
    cases c with
    | iput ip => simp [Cleanup.run, ih]
    | pipeclose pipe writable =>
      cases pipe with
      | none => simp [Cleanup.run, ih]
      | some k =>
        by_cases hk : n = k
        · subst hk
          cases writable <;> simp [Cleanup.run, pipeclose, PipeFlags.close, ih]
        · simp [Cleanup.run, pipeclose, ih, hk]

/-- The pages a cleanup frees after the cleanups `cs`. -/
def freedBy (cs : List Cleanup) : Cleanup → List ℕ
  | .pipeclose (some n) w => if .pipeclose (some n) (!w) ∈ cs then [n] else []
  | _ => []

/-- **A `pipeclose` frees the page if the other end was closed before.** -/
theorem kfreed_append (cs : List Cleanup) (c : Cleanup) :
    (pipePages (cs ++ [c])).kfreed = (pipePages cs).kfreed ++ freedBy cs c := by
  rw [pipePages_append]
  cases c with
  | iput ip => simp [Cleanup.run, freedBy]
  | pipeclose pipe writable =>
    cases pipe with
    | none => simp [Cleanup.run, freedBy]
    | some n =>
      cases writable
      · by_cases h : Cleanup.pipeclose (some n) true ∈ cs <;>
          simp [Cleanup.run, pipeclose, PipeFlags.close, PipeFlags.isDead, freedBy,
            flags_pipePages, h]
      · by_cases h : Cleanup.pipeclose (some n) false ∈ cs <;>
          simp [Cleanup.run, pipeclose, PipeFlags.close, PipeFlags.isDead, freedBy,
            flags_pipePages, h]

theorem freedBy_eq_singleton {cs : List Cleanup} {c : Cleanup} {n : ℕ} :
    freedBy cs c = [n] ↔ ∃ w, c = .pipeclose (some n) w ∧ .pipeclose (some n) (!w) ∈ cs := by
  cases c with
  | iput ip => simp [freedBy]
  | pipeclose pipe writable =>
    cases pipe with
    | none => simp [freedBy]
    | some k =>
      rw [freedBy]
      constructor
      · intro h
        split_ifs at h with hin
        obtain rfl : k = n := by simpa using h
        exact ⟨writable, rfl, hin⟩
      · rintro ⟨w, hc, hin⟩
        obtain ⟨rfl, rfl⟩ : k = n ∧ writable = w := by simpa using hc
        rw [if_pos hin]

/-- If no end is closed twice, a page is freed once both ends are closed, and never again. -/
theorem count_kfreed {cs : List Cleanup} {n : ℕ} (hcs : ∀ w, cs.count (.pipeclose (some n) w) ≤ 1) :
    (pipePages cs).kfreed.count n = if ∀ w, .pipeclose (some n) w ∈ cs then 1 else 0 := by
  induction cs using List.reverseRecOn with
  | nil => simp [pipePages]
  | append_singleton cs c ih =>
    have hle : ∀ w, cs.count (.pipeclose (some n) w) ≤ 1 := fun w =>
      (List.Sublist.count_le _ (sublist_append_left cs [c])).trans (hcs w)
    rw [kfreed_append, count_append, ih hle]
    by_cases hc : ∃ w, c = .pipeclose (some n) w
    · obtain ⟨w, rfl⟩ := hc
      -- this end was not closed before
      have hnew : Cleanup.pipeclose (some n) w ∉ cs := by
        have := hcs w
        rw [count_append, count_singleton_self] at this
        exact count_eq_zero.1 (by omega)
      have hno : ¬∀ w, Cleanup.pipeclose (some n) w ∈ cs := fun hall => hnew (hall w)
      rw [if_neg hno, freedBy]
      by_cases hother : Cleanup.pipeclose (some n) (!w) ∈ cs
      · rw [if_pos hother, if_pos, count_singleton_self]
        intro w'
        rcases Bool.eq_or_eq_not w' w with rfl | rfl
        · simp
        · exact mem_append_left _ hother
      · rw [if_neg hother, if_neg, count_nil]
        intro hall
        rcases mem_append.1 (hall !w) with hin | hin
        · exact hother hin
        · simp at hin
    · have hfreed : (freedBy cs c).count n = 0 := by
        apply count_eq_zero.2
        intro hin
        unfold freedBy at hin
        split at hin
        · rename_i k w
          split_ifs at hin
          · obtain rfl : n = k := by simpa using hin
            exact hc ⟨w, rfl⟩
          · simp at hin
        · simp at hin
      have hmem :
        ∀ w, Cleanup.pipeclose (some n) w ∈ cs ++ [c] ↔ Cleanup.pipeclose (some n) w ∈ cs := by
        intro w
        rw [mem_append, mem_singleton, or_iff_left fun he => hc ⟨w, he.symm⟩]
      simp only [hmem, hfreed, add_zero]

/-! ## The two ends of every pipe -/

/-- The end of a pipe that a file is. -/
def File.pipeEnd (x : File) : Option (ℕ × Bool) := x.pipe.map fun n => (n, x.writable)

namespace Files

variable {s s' : Files} {f f₀ f₁ : FileId} {p np : Slot}

/-- The ends in the file table. -/
def ends (s : Files) (f : FileId) : Option (ℕ × Bool) := (s.file f).pipeEnd

/-- Free slots are clear, pipes are typed, and each end of each pipe made is one file or has been
closed once. -/
structure Ends (s : Files) : Prop where
  free : ∀ f, (s.file f).ref = 0 → (s.file f).ftype = .none
  typed : ∀ f, (s.file f).ftype = .pipe ↔ (s.file f).pipe ≠ none
  once : ∀ n w, entries s.ends (n, w) + s.cleanups.count (.pipeclose (some n) w) = if n < s.nextPipe
    then 1 else 0

theorem ends_setFile (s : Files) (f : FileId) (x : File) :
    (s.setFile f x).ends = update s.ends f x.pipeEnd := by
  funext g
  by_cases hg : g = f
  · subst hg
    simp [ends, setFile]
  · simp [ends, setFile, update_of_ne hg]

theorem Ends.pipe_eq_none (h : Ends s) (hf : (s.file f).ref = 0) : (s.file f).pipe = none := by
  by_contra hne
  have htype := (h.typed f).2 hne
  rw [h.free f hf] at htype
  cases htype

/-- Only the file table, the pipes made and the cleanups matter. -/
theorem Ends.congr (h : Ends s) (hfile : s'.file = s.file) (hnext : s'.nextPipe = s.nextPipe)
    (hclean : s'.cleanups = s.cleanups) : Ends s' := by
  have hends : s'.ends = s.ends := by
    funext f
    rw [ends, ends, hfile]
  refine ⟨fun f => ?_, fun f => ?_, fun n w => ?_⟩
  · rw [hfile]
    exact h.free f
  · rw [hfile]
    exact h.typed f
  · rw [hends, hnext, hclean]
    exact h.once n w

/-- A slot is written that stays the end it is. -/
theorem Ends.setFile (h : Ends s) {x : File} (hend : x.pipeEnd = (s.file f).pipeEnd)
    (hfree : x.ref = 0 → x.ftype = .none) (htyped : x.ftype = .pipe ↔ x.pipe ≠ none) :
      Ends (s.setFile f x) := by
  have hends : (s.setFile f x).ends = s.ends := by
    rw [ends_setFile, hend]
    exact update_eq_self f s.ends
  refine ⟨fun g => ?_, fun g => ?_, fun n w => ?_⟩
  · by_cases hg : g = f
    · subst hg
      simpa [Files.setFile] using hfree
    · simpa [Files.setFile, update_of_ne hg] using h.free g
  · by_cases hg : g = f
    · subst hg
      simpa [Files.setFile] using htyped
    · simpa [Files.setFile, update_of_ne hg] using h.typed g
  · rw [hends]
    exact h.once n w

/-- A count changes, and not to zero. -/
theorem Ends.setRef (h : Ends s) {n : ℤ} (hn : n ≠ 0) :
    Ends (s.setFile f { s.file f with ref := n }) :=
  h.setFile rfl (fun h0 => absurd h0 hn) (h.typed f)

/-- A slot that is no end becomes one of a pipe. -/
theorem Ends.entries_wire (h : (s.file f).pipe = none) {x : File} (n : ℕ) (w : Bool) :
    entries (s.setFile f x).ends (n, w) = entries s.ends (n, w) + if x.pipeEnd = some (n, w) then 1
      else 0 := by
  have hsum := entries_update s.ends f x.pipeEnd (n, w)
  have hno : s.ends f = none := by simp [ends, File.pipeEnd, h]
  rw [← ends_setFile, hno, if_neg (by simp), add_zero] at hsum
  exact_mod_cast hsum

/-- Only the slot of a pipe has a pipe. -/
theorem Ends.pipe_of_ftype (h : Ends s) (hf : (s.file f).ftype ≠ .pipe) :
    (s.file f).pipe = none := by
  by_contra hne
  exact hf ((h.typed f).2 hne)

/-- The cleanup of a slot closes the end it is. -/
theorem Ends.count_cleanup (h : Ends s) (n : ℕ) (w : Bool) :
    ((cleanup (s.file f)).count (.pipeclose (some n) w) : ℤ) = if s.ends f = some (n, w) then 1
      else 0 := by
  unfold cleanup
  cases htype : (s.file f).ftype with
  | pipe =>
    obtain ⟨k, hk⟩ := Option.ne_none_iff_exists'.1 ((h.typed f).1 htype)
    simp [ends, File.pipeEnd, hk, List.count_cons]
  | inode => simp [ends, File.pipeEnd, h.pipe_of_ftype (f := f) (by simp [htype])]
  | none => simp [ends, File.pipeEnd, h.pipe_of_ftype (f := f) (by simp [htype])]

theorem Ends.fileclose (h : Ends s) (hok : Files.fileclose f s = .ok s') : Ends s' := by
  unfold Files.fileclose at hok
  split_ifs at hok with hlt hpos
  · cases hok
    exact h.setRef (by omega)
  · -- the last reference: the end goes and its cleanup is recorded
    cases hok
    have href : (s.file f).ref - 1 = 0 := by omega
    set x : File :=
      { s.file f with ref := (s.file f).ref - 1, ftype := .none, pipe := .none, ip := .none }
      with hx
    refine ⟨fun g => ?_, fun g => ?_, fun n w => ?_⟩
    · by_cases hg : g = f
      · subst hg
        simp [Files.setFile, hx]
      · simpa [Files.setFile, update_of_ne hg] using h.free g
    · by_cases hg : g = f
      · subst hg
        simp [Files.setFile, hx]
      · simpa [Files.setFile, update_of_ne hg] using h.typed g
    · have hsum := entries_update s.ends f x.pipeEnd (n, w)
      rw [← ends_setFile, show x.pipeEnd = none from rfl, if_neg (Option.some_ne_none (n, w)).symm,
        add_zero] at hsum
      have honce := h.once n w
      change entries (s.setFile f x).ends (n, w) + (s.cleanups ++ cleanup (s.file f)).count _ =
        if n < s.nextPipe then 1 else 0
      rw [count_append]
      have htotal : (entries (s.setFile f x).ends (n, w) : ℤ) +
          (s.cleanups.count (.pipeclose (some n) w) + (cleanup (s.file f)).count
            (.pipeclose (some n) w)) =
          entries s.ends (n, w) + s.cleanups.count (.pipeclose (some n) w) := by
        rw [h.count_cleanup]
        omega
      rw [← honce]
      exact_mod_cast htotal

theorem Ends.filedup (h : Ends s) (hok : Files.filedup f s = .ok s') : Ends s' := by
  unfold Files.filedup at hok
  split_ifs at hok with hlt
  cases hok
  exact h.setRef (by omega)

theorem Ends.setFd (h : Ends s) (e : Slot × Fd) (o : Option FileId) : Ends (s.setFd e o) :=
  h.congr rfl rfl rfl

theorem fileclose_ofile (hok : Files.fileclose f s = .ok s') : s'.ofile = s.ofile := by
  unfold Files.fileclose at hok
  split_ifs at hok
  · cases hok
    rfl
  · cases hok
    rfl

theorem pipealloc_ofile {memory : Bool} {fs : Option (FileId × FileId)}
    (hok : Files.pipealloc memory s = .ok (s', fs)) :
    s'.ofile = s.ofile := by
  unfold Files.pipealloc at hok
  rcases filealloc_cases s with hnone | ⟨f₀, -, halloc₀⟩
  · simp only [hnone] at hok
    cases hok
    rfl
  simp only [halloc₀] at hok
  rcases filealloc_cases (s.setFile f₀ { s.file f₀ with ref := 1 }) with hnone | ⟨f₁, -, halloc₁⟩
  · simp only [hnone] at hok
    obtain ⟨s₂, hclose, hret⟩ := bind_eq_ok.1 hok
    cases hret
    have hfds := fileclose_ofile hclose
    exact hfds
  simp only [halloc₁] at hok
  cases memory with
  | false =>
    rw [if_neg Bool.false_ne_true] at hok
    obtain ⟨s₃, hclose₃, hok⟩ := bind_eq_ok.1 hok
    obtain ⟨s₄, hclose₄, hret⟩ := bind_eq_ok.1 hok
    cases hret
    have hfds := (fileclose_ofile hclose₄).trans (fileclose_ofile hclose₃)
    exact hfds
  | true =>
    rw [if_pos rfl] at hok
    cases hok
    rfl

/-- Slots other than the two are as they were. -/
def Apart (f₀ f₁ : FileId) (s s' : Files) : Prop := ∀ f, f ≠ f₀ → f ≠ f₁ → s'.file f = s.file f

theorem Apart.trans {s'' : Files} (h : Apart f₀ f₁ s s') (h' : Apart f₀ f₁ s' s'') :
    Apart f₀ f₁ s s'' :=
  fun f h₀ h₁ => (h' f h₀ h₁).trans (h f h₀ h₁)

theorem apart_setFile {x : File} (hf : f = f₀ ∨ f = f₁) : Apart f₀ f₁ s (s.setFile f x) := by
  intro g h₀ h₁
  have hg : g ≠ f := by
    rintro rfl
    exact hf.elim h₀ h₁
  simp [Files.setFile, update_of_ne hg]

theorem apart_fileclose (hf : f = f₀ ∨ f = f₁) (hok : Files.fileclose f s = .ok s') :
    Apart f₀ f₁ s s' := by
  unfold Files.fileclose at hok
  split_ifs at hok
  · cases hok
    exact apart_setFile hf
  · cases hok
    exact apart_setFile hf

theorem Ends.wire (h : Ends s) (hne : f₀ ≠ f₁) (h₀ : (s.file f₀).pipe = none)
    (h₁ : (s.file f₁).pipe = none)
    (hr₀ : (s.file f₀).ref ≠ 0) (hr₁ : (s.file f₁).ref ≠ 0) {x₀ x₁ : File}
    (hx₀ : x₀ = { s.file f₀ with
      ftype := .pipe, readable := true, writable := false, pipe := some s.nextPipe })
    (hx₁ : x₁ = { s.file f₁ with
      ftype := .pipe, readable := false, writable := true, pipe := some s.nextPipe }) :
    Ends { (s.setFile f₀ x₀).setFile f₁ x₁ with nextPipe := s.nextPipe + 1 } := by
  have hfile₁ : ((s.setFile f₀ x₀).file f₁).pipe = none := by
    simpa [Files.setFile, update_of_ne hne.symm] using h₁
  refine ⟨fun g hg => ?_, fun g => ?_, fun n w => ?_⟩
  · by_cases hg₁ : g = f₁
    · subst hg₁
      simp [Files.setFile, hx₁] at hg
      exact absurd hg hr₁
    · by_cases hg₀ : g = f₀
      · subst hg₀
        simp [Files.setFile, update_of_ne hg₁, hx₀] at hg
        exact absurd hg hr₀
      · simp only [Files.setFile, update_of_ne hg₁, update_of_ne hg₀] at hg ⊢
        exact h.free g hg
  · by_cases hg₁ : g = f₁
    · subst hg₁
      simp [Files.setFile, hx₁]
    · by_cases hg₀ : g = f₀
      · subst hg₀
        simp [Files.setFile, update_of_ne hg₁, hx₀]
      · simpa [Files.setFile, update_of_ne hg₁, update_of_ne hg₀] using h.typed g
  · have honce := h.once n w
    change entries ((s.setFile f₀ x₀).setFile f₁ x₁).ends (n, w) + s.cleanups.count _ =
      if n < s.nextPipe + 1 then 1 else 0
    rw [entries_wire hfile₁, entries_wire h₀]
    have he₀ : x₀.pipeEnd = some (s.nextPipe, false) := by simp [hx₀, File.pipeEnd]
    have he₁ : x₁.pipeEnd = some (s.nextPipe, true) := by simp [hx₁, File.pipeEnd]
    rw [he₀, he₁]
    rcases lt_trichotomy n s.nextPipe with hlt | rfl | hgt
    · simpa [hlt, hlt.ne', Nat.lt_succ_of_lt hlt] using honce
    · rw [if_neg (lt_irrefl _)] at honce
      cases w <;> simp <;> omega
    · have hge : ¬n < s.nextPipe + 1 := by omega
      simpa [hgt.not_gt, hgt.ne, hge] using honce

/-- `pipealloc` touches two slots that were free. -/
theorem Ends.pipealloc (h : Ends s) {memory : Bool} {fs : Option (FileId × FileId)}
    (hok : Files.pipealloc memory s = .ok (s', fs)) :
    Ends s' ∧ ∃ f₀ f₁, Apart f₀ f₁ s s' ∧ (fs = none → s' = s ∨ (s.file f₀).ref = 0 ∧
      (s.file f₁).ref = 0) ∧
      ∀ x, fs = some x → x = (f₀, f₁) ∧ (s.file f₀).ref = 0 ∧ (s.file f₁).ref = 0 := by
  unfold Files.pipealloc at hok
  rcases filealloc_cases s with hnone | ⟨f₀, hzero₀, halloc₀⟩
  · simp only [hnone] at hok
    cases hok
    exact ⟨h, 0, 0, fun _ _ _ => rfl, fun _ => Or.inl rfl, by simp⟩
  simp only [halloc₀] at hok
  have hs₁ := h.setRef (f := f₀) one_ne_zero
  have hp₀ := h.pipe_eq_none hzero₀
  have ha₁ : ∀ f₁, Apart f₀ f₁ s (s.setFile f₀ { s.file f₀ with ref := 1 }) := fun f₁ =>
    apart_setFile (Or.inl rfl)
  rcases filealloc_cases (s.setFile f₀ { s.file f₀ with ref := 1 }) with hnone | ⟨f₁,
    hzero₁, halloc₁⟩
  · simp only [hnone] at hok
    obtain ⟨s₂, hclose, hret⟩ := bind_eq_ok.1 hok
    cases hret
    exact ⟨hs₁.fileclose hclose, f₀, f₀, (ha₁ f₀).trans (apart_fileclose (Or.inl rfl) hclose),
      fun _ => Or.inr ⟨hzero₀, hzero₀⟩, by simp⟩
  simp only [halloc₁] at hok
  -- the first slot is not free any more
  have hne : f₀ ≠ f₁ := by
    rintro rfl
    simp [Files.setFile] at hzero₁
  have hfree₁ : (s.file f₁).ref = 0 := by
    simpa [Files.setFile, update_of_ne hne.symm] using hzero₁
  have hs₂ := hs₁.setRef (f := f₁) one_ne_zero
  have ha₂ := (ha₁ f₁).trans (apart_setFile (s := s.setFile f₀ { s.file f₀ with ref := 1 })
    (x := { (s.setFile f₀ { s.file f₀ with ref := 1 }).file f₁ with ref := 1 }) (Or.inr rfl))
  cases memory with
  | false =>
    rw [if_neg Bool.false_ne_true] at hok
    obtain ⟨s₃, hclose₃, hok⟩ := bind_eq_ok.1 hok
    obtain ⟨s₄, hclose₄, hret⟩ := bind_eq_ok.1 hok
    cases hret
    refine ⟨(hs₂.fileclose hclose₃).fileclose hclose₄, f₀, f₁, ?_,
      fun _ => Or.inr ⟨hzero₀, hfree₁⟩, by simp⟩
    exact (ha₂.trans (apart_fileclose (Or.inl rfl) hclose₃)).trans
      (apart_fileclose (Or.inr rfl) hclose₄)
  | true =>
    rw [if_pos rfl] at hok
    cases hok
    refine ⟨?_, f₀, f₁, ?_, by simp, fun x hx => ⟨(Option.some.inj hx).symm, hzero₀, hfree₁⟩⟩
    · refine hs₂.wire hne ?_ ?_ ?_ ?_ rfl ?_
      · simpa [Files.setFile, update_of_ne hne] using hp₀
      · simpa [Files.setFile, update_of_ne hne.symm] using h.pipe_eq_none hfree₁
      · simp [Files.setFile, update_of_ne hne]
      · simp [Files.setFile]
      · simp [Files.setFile, update_of_ne hne.symm]
    · exact (ha₂.trans (apart_setFile (Or.inl rfl))).trans (apart_setFile (Or.inr rfl))

/-- `sys_pipe`, and what a failed one leaves of the descriptors and of the pipes. -/
theorem Ends.sysPipe (h : Ends s) {valid memory : Bool} {r : ℤ}
    (hok : Files.sysPipe p valid memory s = .ok (s', r)) :
    Ends s' ∧ (r = -1 → s'.ofile = s.ofile ∧
      (s' = s ∨ ∃ f₀ f₁, Apart f₀ f₁ s s' ∧ (s.file f₀).ref = 0 ∧ (s.file f₁).ref = 0)) := by
  unfold Files.sysPipe at hok
  cases valid with
  | false =>
    cases hok
    exact ⟨h, fun _ => ⟨rfl, Or.inl rfl⟩⟩
  | true =>
    rw [if_pos rfl] at hok
    obtain ⟨⟨s₁, fs⟩, halloc, hok⟩ := bind_eq_ok.1 hok
    obtain ⟨h₁, f₀, f₁, hapart, hnone, hsome⟩ := h.pipealloc halloc
    have hfds : s₁.ofile = s.ofile := pipealloc_ofile halloc
    cases fs with
    | none =>
      cases hok
      refine ⟨h₁, fun _ => ⟨hfds, ?_⟩⟩
      exact (hnone rfl).imp_right fun hfree => ⟨f₀, f₁, hapart, hfree⟩
    | some x =>
      obtain ⟨rfl, hfree⟩ := hsome x rfl
      dsimp only at hok
      rcases fdalloc_cases p f₀ s₁ with hfull | ⟨fd₀, hfd₀, hput₀⟩
      · -- no descriptor for the read end
        simp only [hfull] at hok
        obtain ⟨s₂, hclose₂, hok⟩ := bind_eq_ok.1 hok
        obtain ⟨s₃, hclose₃, hret⟩ := bind_eq_ok.1 hok
        cases hret
        refine ⟨(h₁.fileclose hclose₂).fileclose hclose₃, fun _ => ⟨?_, Or.inr ⟨f₀, f₁, ?_, hfree⟩⟩⟩
        · rw [fileclose_ofile hclose₃, fileclose_ofile hclose₂, hfds]
        · exact (hapart.trans (apart_fileclose (Or.inl rfl) hclose₂)).trans
            (apart_fileclose (Or.inr rfl) hclose₃)
      · simp only [hput₀] at hok
        have h₂ := h₁.setFd (p, fd₀) (some f₀)
        rcases fdalloc_cases p f₁ (s₁.setFd (p, fd₀) (some f₀)) with hfull | ⟨fd₁, hfd₁, hput₁⟩
        · -- none for the write end: the first is taken back
          simp only [hfull] at hok
          obtain ⟨s₂, hclose₂, hok⟩ := bind_eq_ok.1 hok
          obtain ⟨s₃, hclose₃, hret⟩ := bind_eq_ok.1 hok
          cases hret
          refine ⟨((h₂.setFd (p, fd₀) none).fileclose hclose₂).fileclose hclose₃,
            fun _ => ⟨?_, Or.inr ⟨f₀, f₁, ?_, hfree⟩⟩⟩
          · rw [fileclose_ofile hclose₃, fileclose_ofile hclose₂]
            simp only [Files.setFd, update_idem]
            rw [← hfds, ← hfd₀, update_eq_self]
          · have hclosed : Apart f₀ f₁ ((s₁.setFd (p, fd₀) (some f₀)).setFd (p, fd₀) none) s₂ :=
              apart_fileclose (Or.inl rfl) hclose₂
            exact (hapart.trans hclosed).trans (apart_fileclose (Or.inr rfl) hclose₃)
        · simp only [hput₁] at hok
          cases hok
          exact ⟨h₂.setFd (p, fd₁) (some f₁), fun hr => by simp at hr⟩

/-! ## The other calls -/

theorem Ends.sysDup (h : Ends s) {fd r : ℤ} (hok : Files.sysDup p fd s = .ok (s', r)) :
    Ends s' := by
  unfold Files.sysDup at hok
  split at hok
  · cases hok
    exact h
  · rename_i f _
    rcases fdalloc_cases p f s with hfull | ⟨fd', -, hput⟩
    · simp only [hfull] at hok
      cases hok
      exact h
    · simp only [hput] at hok
      obtain ⟨s₁, hdup, hret⟩ := bind_eq_ok.1 hok
      cases hret
      exact (h.setFd _ _).filedup hdup

theorem Ends.sysClose (h : Ends s) {fd r : ℤ} (hok : Files.sysClose p fd s = .ok (s', r)) :
    Ends s' := by
  unfold Files.sysClose at hok
  split at hok
  · cases hok
    exact h
  · obtain ⟨s₁, hclose, hret⟩ := bind_eq_ok.1 hok
    cases hret
    exact (h.setFd _ _).fileclose hclose

theorem Ends.forkFile (h : Ends s) {fd : Fd} (hok : Files.forkFile p np s fd = .ok s') :
    Ends s' := by
  unfold Files.forkFile at hok
  split at hok
  · cases hok
    exact h
  · obtain ⟨s₁, hdup, hret⟩ := bind_eq_ok.1 hok
    cases hret
    exact (h.filedup hdup).setFd _ _

theorem Ends.fork (h : Ends s) {room : Bool} {r : ℤ} (hok : Files.fork p np room s = .ok (s', r)) :
    Ends s' := by
  unfold Files.fork at hok
  split_ifs at hok
  · obtain ⟨s₁, hloop, hret⟩ := bind_eq_ok.1 hok
    cases hret
    have hstart : Ends { s with live := update s.live np true } := h.congr rfl rfl rfl
    exact foldlM_ok (I := fun _ x => Ends x) hstart (fun _ _ _ _ hx hx' => hx.forkFile hx') hloop
  · cases hok
    exact h

theorem Ends.exitFile (h : Ends s) {fd : Fd} (hok : Files.exitFile p s fd = .ok s') : Ends s' := by
  unfold Files.exitFile at hok
  split at hok
  · cases hok
    exact h
  · obtain ⟨s₁, hclose, hret⟩ := bind_eq_ok.1 hok
    cases hret
    exact (h.fileclose hclose).setFd _ _

theorem Ends.exit (h : Ends s) {r : ℤ} (hok : Files.exit p s = .ok (s', r)) : Ends s' := by
  unfold Files.exit at hok
  split_ifs at hok
  obtain ⟨s₁, hloop, hret⟩ := bind_eq_ok.1 hok
  cases hret
  have hdone := foldlM_ok (I := fun _ x => Ends x) h (fun _ _ _ _ hx hx' => hx.exitFile hx') hloop
  exact hdone.congr rfl rfl rfl

/-- Every call keeps the ends in order. -/
theorem Ends.fileCall (h : Ends s) {a : FileAct} {r : ℤ} (hok : Sys.fileCall s a = .ok (s', r)) :
    Ends s' := by
  cases a with
  | fork p np room => exact h.fork hok
  | exit p => exact h.exit hok
  | dup p fd => exact h.sysDup hok
  | close p fd => exact h.sysClose hok
  | pipe p valid memory => exact (h.sysPipe hok).1

theorem ends_bootFiles : Ends bootFiles where
  free _ _ := rfl
  typed f := by simp [bootFiles]
  once n w := by
    have hnone : bootFiles.ends = fun _ => none := by
      funext f
      simp [ends, bootFiles, File.pipeEnd]
    rw [hnone, entries_empty]
    simp [bootFiles]

theorem ends_of_reach (h : Reach fileStep Callable bootFiles s) : Ends s := by
  refine h.invariant (I := Ends) ends_bootFiles fun s a s' hs _ hstep => ?_
  unfold fileStep at hstep
  cases hcall : Sys.fileCall s a with
  | error msg => simp [hcall, Except.toOption] at hstep
  | ok r =>
    obtain rfl : r.1 = s' := by simpa [hcall, Except.toOption] using hstep
    exact hs.fileCall hcall

/-! ## Pages -/

/-- The pages of pipes that are allocated. -/
def Allocated (s : Files) (n : ℕ) : Prop := n < s.nextPipe ∧ n ∉ (pipePages s.cleanups).kfreed

theorem Ends.count_le (h : Ends s) (n : ℕ) (w : Bool) :
    s.cleanups.count (.pipeclose (some n) w) ≤ 1 := by
  have honce := h.once n w
  split_ifs at honce <;> omega

/-- An end has been closed as soon as no file is that end. -/
theorem Ends.closed_iff (h : Ends s) {n : ℕ} (hn : n < s.nextPipe) (w : Bool) :
    .pipeclose (some n) w ∈ s.cleanups ↔ ∀ f, s.ends f ≠ some (n, w) := by
  have honce := h.once n w
  rw [if_pos hn] at honce
  rw [← count_pos_iff]
  constructor
  · intro hpos f hf
    have := one_le_entries hf
    omega
  · intro hno
    have hzero : entries s.ends (n, w) = 0 :=
      Finset.card_eq_zero.2 (Finset.filter_eq_empty_iff.2 fun f _ => hno f)
    omega

theorem ends_eq_some {n : ℕ} {w : Bool} :
    s.ends f = some (n, w) ↔ (s.file f).pipe = some n ∧ (s.file f).writable = w := by
  simp [ends, File.pipeEnd]

/-- A page is allocated as long as a file points to it. -/
theorem Ends.allocated_iff (h : Ends s) (n : ℕ) :
    s.Allocated n ↔ ∃ f, (s.file f).pipe = some n := by
  unfold Allocated
  rw [← count_eq_zero, count_kfreed (h.count_le n)]
  constructor
  · rintro ⟨hn, hcount⟩
    by_contra hno
    push Not at hno
    rw [if_pos fun w => (h.closed_iff hn w).2 fun f hf => hno f (ends_eq_some.1 hf).1] at hcount
    exact one_ne_zero hcount
  · rintro ⟨f, hf⟩
    have hend : s.ends f = some (n, (s.file f).writable) := ends_eq_some.2 ⟨hf, rfl⟩
    have hn : n < s.nextPipe := by
      by_contra hge
      have honce := h.once n (s.file f).writable
      have := one_le_entries hend
      rw [if_neg hge] at honce
      omega
    refine ⟨hn, if_neg fun hall => ?_⟩
    exact (h.closed_iff hn _).1 (hall (s.file f).writable) f hend

/-- **The life of a pipe.**  In every state reached by `sys_pipe`, `sys_dup`, `fork`, `sys_close`
and `exit`: the page of a pipe has been passed to `kfree` once if no file with references points to
it, and not at all if one does; it was done by the `pipeclose` of one end that came after that of
the other, and an end gets its `pipeclose`, from the `fileclose` that drops the last reference, once
no file with references is that end.  And if `sys_pipe` fails now, then descriptors, reference
counts and allocated pages are as before. -/
theorem pipe_lifetime (h : Reach fileStep Callable bootFiles s) :
    (∀ n, n < s.nextPipe → (pipePages s.cleanups).kfreed.count n =
      if ∃ f, (s.file f).ref ≠ 0 ∧ (s.file f).pipe = some n then 0 else 1) ∧
    (∀ cs c cs', s.cleanups = cs ++ c :: cs' → ∀ n,
      ((pipePages (cs ++ [c])).kfreed = (pipePages cs).kfreed ++ [n] ↔
        ∃ w, c = .pipeclose (some n) w ∧ .pipeclose (some n) (!w) ∈ cs)) ∧
    (∀ n, n < s.nextPipe → ∀ w, s.cleanups.count (.pipeclose (some n) w) =
      if ∃ f, (s.file f).ref ≠ 0 ∧ (s.file f).pipe = some n ∧
        (s.file f).writable = w then 0 else 1) ∧
    (∀ f n, (s.file f).ref ≠ 0 → (s.file f).pipe = some n → n ∉ (pipePages s.cleanups).kfreed) ∧
    ∀ p valid memory s', s.live p = true → sysPipe p valid memory s = .ok (s', -1) →
      s'.ofile = s.ofile ∧ (∀ f, (s'.file f).ref = (s.file f).ref) ∧ ∀ n, s'.Allocated n ↔
        s.Allocated n := by
  have hends := ends_of_reach h
  have hsound := sound_of_reach h
  have hlive : ∀ f n, (s.file f).pipe = some n → (s.file f).ref ≠ 0 := by
    intro f n hf h0
    rw [hends.pipe_eq_none h0] at hf
    cases hf
  refine ⟨fun n hn => ?_, fun cs c cs' _ n => ?_, fun n hn w => ?_, fun f n _ hf => ?_,
    fun p valid memory s' hp hok => ?_⟩
  · have halloc := hends.allocated_iff n
    rw [Allocated, and_iff_right hn, ← count_eq_zero] at halloc
    by_cases hex : ∃ f, (s.file f).pipe = some n
    · obtain ⟨f, hf⟩ := hex
      rw [if_pos ⟨f, hlive f n hf, hf⟩, halloc.2 ⟨f, hf⟩]
    · rw [if_neg fun ⟨f, _, hf⟩ => hex ⟨f, hf⟩]
      have hne := mt halloc.1 hex
      rw [count_kfreed (hends.count_le n)] at hne ⊢
      split_ifs at hne ⊢
      · rfl
      · exact absurd rfl hne
  · rw [kfreed_append, append_cancel_left_eq, freedBy_eq_singleton]
  · have hcount := hends.count_le n w
    by_cases hex : ∃ f, (s.file f).ref ≠ 0 ∧ (s.file f).pipe = some n ∧ (s.file f).writable = w
    · rw [if_pos hex, count_eq_zero, hends.closed_iff hn]
      obtain ⟨f, -, hf⟩ := hex
      exact fun hno => hno f (ends_eq_some.2 hf)
    · rw [if_neg hex]
      have hmem : Cleanup.pipeclose (some n) w ∈ s.cleanups := by
        refine (hends.closed_iff hn w).2 fun f hf => hex ⟨f, ?_, ends_eq_some.1 hf⟩
        exact hlive f n (ends_eq_some.1 hf).1
      have := count_pos_iff.2 hmem
      omega
  · exact ((hends.allocated_iff n).2 ⟨f, hf⟩).2
  · obtain ⟨hends', hfail⟩ := hends.sysPipe hok
    obtain ⟨hofile, hfiles⟩ := hfail rfl
    obtain ⟨r, hok', hsound'⟩ := sound_sysPipe hsound hp valid memory
    obtain rfl : r = (s', -1) := Except.ok.inj (hok'.symm.trans hok)
    have href : ∀ f, (s'.file f).ref = (s.file f).ref := by
      intro f
      rw [hsound'.ref f, hsound.ref f, refs, refs, hofile]
    refine ⟨hofile, href, fun n => ?_⟩
    have hpipe : ∀ f, (s'.file f).pipe = (s.file f).pipe := by
      intro f
      rcases hfiles with rfl | ⟨f₀, f₁, hapart, hfree₀, hfree₁⟩
      · rfl
      · by_cases hf : f = f₀ ∨ f = f₁
        · have h0 : (s.file f).ref = 0 := by
            rcases hf with rfl | rfl
            · exact hfree₀
            · exact hfree₁
          rw [hends.pipe_eq_none h0, hends'.pipe_eq_none ((href f).trans h0)]
        · rw [not_or] at hf
          rw [hapart f hf.1 hf.2]
    rw [hends'.allocated_iff, hends.allocated_iff]
    simp only [hpipe]

/-- `init` makes a pipe and closes one of its ends after the other. -/
def closeBoth : List FileAct := [.pipe INITPROC true true, .close INITPROC 1, .close INITPROC 0]

theorem pipe_lifetime_closeBoth : ∃ s, Reach fileStep Callable bootFiles s ∧ 0 < s.nextPipe ∧
    (pipePages s.cleanups).kfreed.count 0 = if ∃ f, (s.file f).ref ≠ 0 ∧ (s.file f).pipe = some 0
      then 0 else 1 := by
  have hrun : (exec fileStep (fun s a => decide (Callable s a)) bootFiles closeBoth).map
      (fun s => s.nextPipe) = some 1 := by decide +kernel
  obtain ⟨s, hexec, hnext⟩ := Option.map_eq_some_iff.1 hrun
  have hreach : Reach fileStep Callable bootFiles s :=
    reach_of_exec (fun _ _ h => of_decide_eq_true h) .init hexec
  have hpos : 0 < s.nextPipe := by omega
  exact ⟨s, hreach, hpos, (pipe_lifetime hreach).1 0 hpos⟩

end Files

end Xv6.Sys
