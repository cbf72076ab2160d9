import Xv6.Fs.CacheRules

/-!
# The buffer cache is a block store

Any number of processes read blocks, change the buffers they hold and log or
write them, and release them, in any order and interleaved at every lock.  The
code under `log.lock` may change the log at any moment.

* `StoreCall` — what a process may do with the guards it holds.
* `cache_refines_store` — a guard's buffer has the data last left in its block; the
  latest data of a block is on the disk, or in its dirty or still locked buffer,
  so recycling never loses it; and no two buffers in use carry one tag.
-/

namespace Xv6.Fs

open Lib

variable {τ : Type}

/-- The calls of a process that holds the guards `l`. -/
inductive StoreCall (t : τ) (l : List Guard) : Prog (BState τ) (List Guard) → Prop
  | read (dev b : ℕ) : StoreCall t l ((read t dev b).bind fun i => .ret (⟨i, dev, b⟩ :: l))
  | log (g : Guard) (f : Block → Block) : g ∈ l →
      StoreCall t l ((modify g.buf f).bind fun _ => (logWrite g.buf).bind fun _ => .ret l)
  | write (g : Guard) (f : Block → Block) : g ∈ l →
      StoreCall t l ((modify g.buf f).bind fun _ => (write g.buf).bind fun _ => .ret l)
  | release (g : Guard) : g ∈ l → StoreCall t l ((releaseBuf g.buf).bind fun _ => .ret (l.erase g))
  | underLogLock (f : Log → Log) :
      StoreCall t l ((Prog.change fun s => { s with log := f s.log }).bind fun _ => .ret l)

/-- The machine at boot, with every process between calls and holding nothing. -/
def storeBoot (disk : ℕ → ℕ → Block) (lg : Log) : Pool (BState τ) τ (List Guard) :=
  ⟨.boot disk lg, fun _ => .ret []⟩

/-- Here the view obeys no further invariant. -/
def anyView (_ : View) (_ : τ → Unit) : Prop := True

/-- What is known of a process between calls: it holds its guards and nothing is
half done. -/
def Idle (_ : τ) (l : List Guard) (γ : Held × Unit) : Prop := γ = (⟨l, none, none⟩, ())

variable [Fintype τ] [DecidableEq τ]

omit [Fintype τ] in
theorem moves_anyView (t : τ) (f : View → View) : Moves anyView t () f fun _ => True :=
  fun _ _ _ _ => ⟨(), trivial, trivial⟩

/-- Every call keeps the invariant of the cache. -/
theorem storeCall_safe (t : τ) (l : List Guard) (γ : Held × Unit)
    (p : Prog (BState τ) (List Guard)) (hγ : Idle t l γ) (hc : StoreCall t l p) :
    Safe (CInv anyView) (fun _ _ => True) t p γ (Idle t) := by
  cases hγ
  cases hc with
  | read dev b =>
    refine (safe_read fun _ _ _ _ => trivial).bind ?_
    rintro i γ rfl
    exact safe_ret.2 rfl
  | log g f hg =>
    refine (safe_modify hg (Or.inl rfl) f (moves_anyView t _)).bind ?_
    rintro _ ⟨h, e⟩ ⟨rfl, -⟩
    refine (safe_logWrite (Q := fun _ => True) hg (Or.inr rfl) (fun _ _ _ _ _ => trivial)
      (fun _ _ _ _ _ => trivial) (fun _ _ _ _ _ => trivial)
      fun _ _ _ _ _ _ => ⟨(), trivial, trivial⟩).bind ?_
    rintro _ ⟨h, e⟩ ⟨rfl, -⟩
    exact safe_ret.2 rfl
  | write g f hg =>
    refine (safe_modify hg (Or.inl rfl) f (moves_anyView t _)).bind ?_
    rintro _ ⟨h, e⟩ ⟨rfl, -⟩
    refine (safe_write hg (Or.inr rfl) (moves_anyView t _) fun _ _ => moves_anyView t _).bind ?_
    rintro _ ⟨h, e⟩ ⟨rfl, -⟩
    exact safe_ret.2 rfl
  | release g hg =>
    refine (safe_releaseBuf hg fun m => by simp).bind ?_
    rintro _ γ rfl
    exact safe_ret.2 rfl
  | underLogLock f =>
    refine Safe.bind (M := fun _ γ => γ = (⟨l, none, none⟩, ()))
      (safe_change fun s G hI hG => ?_) ?_
    · exact ⟨_, CInv.setLog s.base hI hG trivial, rfl⟩
    · rintro _ γ rfl
      exact safe_ret.2 rfl

/-- The invariant of the cache in every reachable state. -/
theorem cacheInv_of_reachable {disk : ℕ → ℕ → Block} {lg : Log} {P : Pool (BState τ) τ (List Guard)}
    (hP : Pool.Reachable StoreCall (storeBoot disk lg) P) :
    ∃ G : τ → Held, CacheInv P.shared G ∧ ∀ t l, P.thread t = .ret l → G t = ⟨l, none, none⟩ := by
  have hboot : (storeBoot disk lg : Pool (BState τ) τ (List Guard)).Ok (CInv anyView)
      (fun _ _ => True) Idle :=
    ⟨fun _ => (.empty, ()), ⟨CacheInv.boot disk lg, trivial⟩, fun _ => Or.inl rfl⟩
  obtain ⟨G, hI, hret, -⟩ := (Pool.sound storeCall_safe hboot hP).post
  refine ⟨Prod.fst ∘ G, hI.1, fun t l ht => ?_⟩
  rw [Function.comp_apply, hret t l ht]

omit [DecidableEq τ] in
/-- The latest data of a block is on the disk unless its buffer is dirty or locked. -/
theorem CacheInv.latest {s : BState τ} {G : τ → Held} (hI : CacheInv s G) (dev b : ℕ) :
    s.disk dev b = s.last dev b ∨ ∃ i, (s.buf i).tag = (dev, b) ∧ (s.buf i).data = s.last dev b ∧
      ((s.buf i).dirty = true ∨ (s.buf i).lock ≠ none) := by
  rcases hI.datas.home dev b with ⟨i, hv, ht⟩ | hd
  · have hdata : (s.buf i).data = s.last dev b := by
      have := hI.datas.content i hv
      rwa [ht] at this
    by_cases hdirty : (s.buf i).dirty = true
    · exact .inr ⟨i, ht, hdata, Or.inl hdirty⟩
    by_cases hlock : (s.buf i).lock = none
    · -- an unlocked buffer is not in the middle of a change
      left
      have hraw : ∀ t, (G t).mark ≠ some (.raw, i) := by
        intro t hm
        have hmem := hI.datas.mark t _ _ hm
        have hown : (s.buf i).lock = some t := by
          rw [hI.locks.lock]
          unfold Held.owned
          split <;> simp_all
        rw [hlock] at hown
        cases hown
      have := hI.datas.clean i hv (by simpa using hdirty) hraw
      rwa [ht] at this
    · exact .inr ⟨i, ht, hdata, Or.inr hlock⟩
  · exact .inl hd

omit [Fintype τ] [DecidableEq τ] in
/-- Looking for a buffer never touches one that is dirty. -/
theorem getSection_dirty {s s' : BState τ} {dev b : ℕ} {i : Fin NBUF}
    (h : getSection dev b s = .ok (i, s')) (j : Fin NBUF) (hj : (s.buf j).dirty = true) :
    (s'.buf j).tag = (s.buf j).tag ∧ (s'.buf j).dirty = true ∧ (s'.buf j).valid = (s.buf j).valid ∧
      (s'.buf j).data = (s.buf j).data := by
  unfold getSection at h
  split at h
  · rename_i k hfind
    simp only [Except.ok.injEq, Prod.mk.injEq] at h
    obtain ⟨rfl, rfl⟩ := h
    by_cases hjk : j = k
    · subst hjk
      simp [Buf.addRef, Buf.tag, hj]
    · simp [modBuf_buf_of_ne s _ hjk, hj]
  · split at h
    · rename_i k hfind
      simp only [Except.ok.injEq, Prod.mk.injEq] at h
      obtain ⟨rfl, rfl⟩ := h
      have hfound := List.find?_some hfind
      have hidle := ((Buf.idle_iff _).1 hfound).2
      have hjk : j ≠ k := by
        rintro rfl
        simp [hj] at hidle
      simp [modBuf_buf_of_ne s _ hjk, hj]
    · cases h

/-- **The buffer cache refines a block store.**  In every state any interleaving
reaches: a buffer a process holds carries the block it asked for and the data last
left there; that data is on the disk or kept in a dirty or locked buffer, and `get`
leaves dirty buffers alone; two buffers in use never carry one tag. -/
theorem cache_refines_store (disk : ℕ → ℕ → Block) (lg : Log) (P : Pool (BState τ) τ (List Guard))
    (hP : Pool.Reachable StoreCall (storeBoot disk lg) P) :
    (∀ t l, P.thread t = .ret l → ∀ g ∈ l, (P.shared.buf g.buf).tag = (g.dev, g.blockno) ∧
        (P.shared.buf g.buf).data = P.shared.last g.dev g.blockno) ∧
      (∀ dev b, P.shared.disk dev b = P.shared.last dev b ∨
        ∃ i, (P.shared.buf i).tag = (dev, b) ∧ (P.shared.buf i).data = P.shared.last dev b ∧
          ((P.shared.buf i).dirty = true ∨ (P.shared.buf i).lock ≠ none)) ∧
      (∀ dev b i s', getSection dev b P.shared = .ok (i, s') →
        ∀ j, (P.shared.buf j).dirty = true →
          (s'.buf j).tag = (P.shared.buf j).tag ∧ (s'.buf j).dirty = true ∧
            (s'.buf j).data = (P.shared.buf j).data) ∧
      ∀ i j, (P.shared.buf i).Live → (P.shared.buf j).Live →
        (P.shared.buf i).tag = (P.shared.buf j).tag → i = j := by
  obtain ⟨G, hI, hret⟩ := cacheInv_of_reachable hP
  refine ⟨fun t l ht g hg => ?_, hI.latest, fun dev b i s' hget j hj => ?_, hI.lists.unique⟩
  · obtain ⟨-, -, htag, hdata⟩ := hI.held (hret t l ht) hg
    exact ⟨htag, hdata⟩
  · obtain ⟨htag, hdirty, -, hdata⟩ := getSection_dirty hget j hj
    exact ⟨htag, hdirty, hdata⟩

/-- One process logs a change to a block and releases it; then another one reads
the block. -/
def handOver : List (Fin 2 × (List Guard → Prog (BState (Fin 2)) (List Guard))) :=
  [(0, fun l => (read 0 1 7).bind fun i => .ret (⟨i, 1, 7⟩ :: l)), (0, fun l => match l with
      | g :: gs => (modify g.buf fun d => d.setWord 0 5).bind fun _ =>
          (logWrite g.buf).bind fun _ => .ret (g :: gs)
      | [] => (Prog.change fun s => { s with log := id s.log }).bind fun _ => .ret []),
   (0, fun l => match l with
      | g :: gs => (releaseBuf g.buf).bind fun _ => .ret ((g :: gs).erase g)
      | [] => (Prog.change fun s => { s with log := id s.log }).bind fun _ => .ret []),
   (1, fun l => (read 1 1 7).bind fun i => .ret (⟨i, 1, 7⟩ :: l))]

/-- A log with one operation open. -/
def openLog : Log := (Log.fresh 2 30).enter

/-- The block process 1 holds and what it finds there. -/
def found (P : Pool (BState (Fin 2)) (Fin 2) (List Guard)) : Option (ℕ × ℕ × ℕ) :=
  match P.thread 1 with
  | .ret (g :: _) => some (g.dev, g.blockno, (P.shared.buf g.buf).data.word 0)
  | _ => none

theorem handOver_calls (c : Fin 2 × (List Guard → Prog (BState (Fin 2)) (List Guard)))
    (hc : c ∈ handOver) (l : List Guard) : StoreCall c.1 l (c.2 l) := by
  simp only [handOver, List.mem_cons, List.not_mem_nil, or_false] at hc
  rcases hc with rfl | rfl | rfl | rfl
  · exact .read 1 7
  · cases l with
    | nil => exact .underLogLock id
    | cons g gs => exact .log g (fun d => d.setWord 0 5) List.mem_cons_self
  · cases l with
    | nil => exact .underLogLock id
    | cons g gs => exact .release g List.mem_cons_self
  · exact .read 1 7

theorem cache_refines_store_handOver : ∃ P : Pool (BState (Fin 2)) (Fin 2) (List Guard),
    Pool.Reachable StoreCall (storeBoot (fun _ _ => .zero) openLog) P ∧
      found P = some (1, 7, 5) ∧ (P.shared.last 1 7).word 0 = 5 := by
  have hrun : (Pool.runCalls handOver (storeBoot (fun _ _ => .zero) openLog)).map found =
      some (some (1, 7, 5)) := by decide +kernel
  obtain ⟨P, hP, hfound⟩ := Option.map_eq_some_iff.1 hrun
  have hreach := Pool.reachable_of_runCalls handOver_calls (fun _ _ => by simp [storeBoot]) hP
  refine ⟨P, hreach, hfound, ?_⟩
  unfold found at hfound
  split at hfound
  · rename_i g gs hthread
    simp only [Option.some.injEq, Prod.mk.injEq] at hfound
    obtain ⟨hdev, hblock, hword⟩ := hfound
    have hdata := ((cache_refines_store _ _ P hreach).1 1 _ hthread g List.mem_cons_self).2
    rw [hdev, hblock] at hdata
    rw [← hdata, hword]
  · cases hfound

end Xv6.Fs
