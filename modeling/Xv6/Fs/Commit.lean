import Xv6.Fs.Recovery

/-!
# `commit`, with a crash possible at every write

The committing process owns the view.  As long as the header on disk is empty the
home blocks are those of the latest commit (`base`); from the moment it lists the
logged blocks the disk leads to what the operations left in the cache (`last`), and
installing and clearing keep that so.  Nothing in between is ever on the disk.

* `CrashOk` — the disk leads to `base` or to `last`.
* `Copying` — the phases of `write_log`; `copying_phases`.
* `own_commit` — `commit` keeps `CrashOk` at every write and ends with the cached
  contents in place, an empty header and nothing pinned.

All of it under the proviso that the log has never held more blocks than fit
(`Spoiled`): `log_write` tests that before it takes the lock.
-/

namespace Xv6.Fs

open Lib Function

/-! ## The crash condition -/

/-- The log has held more blocks than its area has room for. -/
def Spoiled (v : View) : Prop := v.log.size ≤ v.peak

theorem Spoiled.frame {v v' : View} (hf : SameFrame v v') (h : Spoiled v) : Spoiled v' := by
  unfold Spoiled
  rw [hf.size, hf.peak]
  exact h

/-- Recovery from the disk of this view leads to the contents `T`. -/
def View.RecoversTo (v : View) (T : ℕ → Block) : Prop :=
  ∃ l, Recoverable v.log.start v.log.size T (v.disk ROOTDEV) l

/-- Recovery leads to the latest commit, or to what is in the cache. -/
def CrashOk (v : View) : Prop := v.RecoversTo (v.base ROOTDEV) ∨ v.RecoversTo (v.last ROOTDEV)

/-- What the committing process keeps to at every step. -/
def CommitSafe (v : View) : Prop := PinsLogged v ∧ (Spoiled v ∨ CrashOk v)

/-- The cached contents outside the log are `T`. -/
def Cached (start size : ℕ) (T : ℕ → Block) (last : ℕ → ℕ → Block) : Prop :=
  ∀ b, ¬ InLog start size b → last ROOTDEV b = T b

theorem keeps_cached (start size : ℕ) (T : ℕ → Block) :
    Keeps start size T (Cached start size T) := by
  intro last b d hd h c hc
  rw [storeAt_root]
  by_cases hcb : c = b
  · subst hcb
    rw [update_self]
    exact hd.resolve_left hc
  · rw [update_of_ne hcb]
    exact h c hc

theorem crashOk_of_leadsTo {lg : Log} {T : ℕ → Block} (v : View) (hstart : v.log.start = lg.start)
    (hsize : v.log.size = lg.size)
    (h : LeadsTo lg.start lg.size T (Cached lg.start lg.size T) v) : CrashOk v := by
  obtain ⟨⟨l, hl⟩, hk⟩ := h
  refine .inr ⟨l, ?_⟩
  rw [hstart, hsize]
  exact hl.congr fun b hb => (hk b hb).symm

/-! ## Writing the log -/

/-- The logged blocks fit the log and the header, and lie outside the log. -/
structure LogWf (lg : Log) : Prop where
  fits : lg.n < lg.size
  short : lg.n ≤ LOGSIZE
  home : ∀ b ∈ lg.block, ¬ InLog lg.start lg.size b ∧ b < 2 ^ 32

/-- `k` blocks are copied to the log; the header is still empty. -/
structure Copying (T : ℕ → Block) (lg : Log) (k : ℕ) (v : View) : Prop where
  log : v.log = lg
  wf : LogWf lg
  keep : Cached lg.start lg.size T v.last
  head : header (v.disk ROOTDEV lg.start) = []
  base : ∀ b, ¬ InLog lg.start lg.size b → v.disk ROOTDEV b = v.base ROOTDEV b
  rest : ∀ b, ¬ InLog lg.start lg.size b → b ∉ lg.block → v.disk ROOTDEV b = T b
  copies : ∀ j, j < k → v.disk ROOTDEV (lg.copyOf j) = T (lg.home j) ∧
    v.last ROOTDEV (lg.copyOf j) = T (lg.home j)

section Copying

variable {T : ℕ → Block} {lg : Log} {k : ℕ} {v : View}

theorem LogWf.inLog_start (h : LogWf lg) : InLog lg.start lg.size lg.start :=
  ⟨le_refl _, by have := h.fits; omega⟩

theorem LogWf.inLog_copyOf (h : LogWf lg) {j : ℕ} (hj : j < lg.n) :
    InLog lg.start lg.size (lg.copyOf j) := by
  have := h.fits
  unfold Log.copyOf
  exact ⟨by omega, by omega⟩

theorem Copying.crashOk (h : Copying T lg k v) : CrashOk v := by
  refine .inl ⟨[], ?_⟩
  rw [h.log]
  exact Recoverable.of_empty (Nat.zero_lt_of_lt h.wf.fits) h.head h.base

/-- Leaving something in a log block other than the ones copied so far. -/
theorem Copying.leave (h : Copying T lg k v) {b : ℕ} {d : Block} (hb : InLog lg.start lg.size b)
    (hne : ∀ j, j < k → lg.copyOf j ≠ b) : Copying T lg k (v.leave ROOTDEV b d) := by
  refine ⟨h.log, h.wf, keeps_cached _ _ _ _ _ _ (Or.inl hb) h.keep, h.head, h.base, h.rest,
    fun j hj => ⟨(h.copies j hj).1, ?_⟩⟩
  simp only [View.leave, storeAt_root]
  rw [update_of_ne (hne j hj)]
  exact (h.copies j hj).2

theorem copying_phases : CopyPhases CrashOk lg Log.home Log.copyOf (Copying T lg)
    (fun k d v => Copying T lg k v ∧ d = T (lg.home k))
    (fun k v => Copying T lg k v ∧ v.last ROOTDEV (lg.copyOf k) = T (lg.home k))
    (fun k v => Copying T lg k v ∧ v.last ROOTDEV (lg.copyOf k) = T (lg.home k)) where
  log _ _ h := h.log
  read k hk v h := ⟨h, h.keep _ (h.wf.home _ (Log.home_mem hk)).1⟩
  modify k hk v d h := by
    obtain ⟨h, rfl⟩ := h
    refine ⟨h.leave (h.wf.inLog_copyOf hk) fun j hj he => ?_, by simp [View.leave]⟩
    simp only [Log.copyOf] at he
    omega
  unpin _ _ _ h :=
    ⟨⟨h.1.log, h.1.wf, h.1.keep, h.1.head, h.1.base, h.1.rest, h.1.copies⟩, h.2⟩
  flush k hk v h := by
    obtain ⟨h, hlast⟩ := h
    have hin := h.wf.inLog_copyOf hk
    have hout : ∀ b, ¬ InLog lg.start lg.size b → b ≠ lg.copyOf k := fun b hb he => hb (he ▸ hin)
    refine ⟨h.log, h.wf, h.keep, ?_, fun b hb => ?_, fun b hb hbl => ?_, fun j hj => ?_⟩
    · have hne : lg.start ≠ lg.copyOf k := by simp only [Log.copyOf]; omega
      simp only [View.flush, storeAt_root]
      rw [update_of_ne hne]
      exact h.head
    · simp only [View.flush, storeAt_root]
      rw [update_of_ne (hout b hb)]
      exact h.base b hb
    · simp only [View.flush, storeAt_root]
      rw [update_of_ne (hout b hb)]
      exact h.rest b hb hbl
    · simp only [View.flush, storeAt_root]
      by_cases hjk : j = k
      · subst hjk
        rw [update_self]
        exact ⟨hlast, hlast⟩
      · have hne : lg.copyOf j ≠ lg.copyOf k := by simp only [Log.copyOf]; omega
        rw [update_of_ne hne]
        exact h.copies j (by omega)
  safeI _ _ h := h.crashOk
  safeM _ _ h := h.1.crashOk
  safeU _ _ h := h.1.crashOk

/-- **The commit point**: the write of the header turns a disk that holds the latest
commit into one that leads to the cached contents. -/
theorem Copying.flush_header (h : Copying T lg lg.n v)
    (hhead : header (v.last ROOTDEV lg.start) = lg.block) :
    Install (Cached lg.start lg.size T) T lg 0 (v.flush ROOTDEV lg.start) := by
  have hin := h.wf.inLog_start
  refine ⟨h.log, ⟨?_, h.wf.fits, h.wf.short, fun b hb => (h.wf.home b hb).1, fun j hj => ?_,
    fun b hb hbl => ?_⟩, fun j hj => (h.copies j hj).2, fun j hj => absurd hj (Nat.not_lt_zero j),
    h.keep⟩
  · simpa [View.flush] using hhead
  · simp only [View.flush, storeAt_root]
    rw [update_of_ne (by omega)]
    exact (h.copies j hj).1
  · have hne : b ≠ lg.start := fun he => hb (he ▸ hin)
    simp only [View.flush, storeAt_root]
    rw [update_of_ne hne]
    exact h.rest b hb hbl

end Copying

/-! ## `commit` -/

/-- What the committing process starts from. -/
structure Ready (v : View) : Prop where
  peak : v.log.n ≤ v.peak
  short : v.log.n ≤ LOGSIZE
  home : ∀ b ∈ v.log.block, ¬ InLog v.log.start v.log.size b ∧ b < 2 ^ 32
  head : header (v.disk ROOTDEV v.log.start) = []
  base : ∀ b, ¬ InLog v.log.start v.log.size b → v.disk ROOTDEV b = v.base ROOTDEV b
  clean : ∀ b, ¬ InLog v.log.start v.log.size b → b ∉ v.log.block →
    v.disk ROOTDEV b = v.last ROOTDEV b

/-- What it ends with. -/
structure Settled (v : View) : Prop where
  head : header (v.disk ROOTDEV v.log.start) = []
  home : ∀ b, ¬ InLog v.log.start v.log.size b → v.disk ROOTDEV b = v.last ROOTDEV b

/-- `commit` is done: nothing logged, nothing pinned. -/
structure Committed (v : View) : Prop where
  block : v.log.block = []
  pins : ∀ dev b, ¬ v.dirty dev b
  disk : Spoiled v ∨ Settled v

theorem Ready.copying {v : View} (h : Ready v) (hs : ¬ Spoiled v) :
    Copying (v.last ROOTDEV) v.log 0 v := by
  have hpeak := h.peak
  unfold Spoiled at hs
  exact ⟨rfl, ⟨by omega, h.short, h.home⟩, fun _ _ => rfl, h.head, h.base, h.clean,
    fun j hj => absurd hj (Nat.not_lt_zero j)⟩

section Programs

variable {τ E : Type} [Fintype τ] [DecidableEq τ] {X : View → (τ → E) → Prop} {t : τ}
  {own : (View → Prop) → E} {allowed : BState τ → String → Prop} {gs : List Guard}

/-- `write_log(); write_head()`: up to the commit point. -/
theorem own_writeLog (hx : Exclusive X t own CommitSafe)
    (hdry : ∀ s G, CInv X s G → s.Full → allowed s "bget: no buffers") (T : ℕ → Block) (lg : Log) :
    Safe (CInv X) allowed t ((writeLog t).bind fun _ => writeHead t)
      (⟨gs, none, none⟩, own fun v => Pinned lg 0 v ∧ (Spoiled v ∨ Copying T lg 0 v))
      fun _ γ => γ = (⟨gs, none, none⟩, own fun v => Pinned lg 0 v ∧
        (Spoiled v ∨ Install (Cached lg.start lg.size T) T lg 0 v)) := by
  refine (own_copyBlocks hx hdry lg
    ((pinned_writeLog lg).orElse copying_phases fun _ _ => Spoiled.frame)).bind ?_
  rintro _ γ rfl
  have hsafe : ∀ v, (Pinned lg 0 v ∧ (Spoiled v ∨
      Copying T lg lg.n v ∧ header (v.last ROOTDEV lg.start) = lg.block)) → CommitSafe v :=
    fun v h => ⟨h.1.logged, h.2.imp_right fun hc => hc.1.crashOk⟩
  refine own_writeHead hx hdry lg
    (M := fun v => Pinned lg 0 v ∧ (Spoiled v ∨
      Copying T lg lg.n v ∧ header (v.last ROOTDEV lg.start) = lg.block))
    (U := fun v => Pinned lg 0 v ∧ (Spoiled v ∨
      Copying T lg lg.n v ∧ header (v.last ROOTDEV lg.start) = lg.block))
    (fun v h => h.1.log) ?_ hsafe ?_ hsafe ?_ ?_
  · rintro v ⟨hp, hc⟩
    refine ⟨⟨hp.log, hp.pins⟩, hc.imp (Spoiled.frame (sameFrame_of_log rfl rfl rfl)) fun h => ?_⟩
    refine ⟨h.leave h.wf.inLog_start fun j hj => by simp only [Log.copyOf]; omega, ?_⟩
    simp only [View.leave, storeAt_self]
    exact header_putHeader _ h.wf.short fun b hb => (h.wf.home b hb).2
  · rintro v ⟨hp, hc⟩
    refine ⟨hp.unpin _ _, hc.imp (Spoiled.frame (sameFrame_of_log rfl rfl rfl)) fun h => ?_⟩
    exact ⟨⟨h.1.log, h.1.wf, h.1.keep, h.1.head, h.1.base, h.1.rest, h.1.copies⟩, h.2⟩
  · rintro v ⟨hp, hc⟩
    exact ⟨⟨hp.log, hp.pins⟩, hc.imp (Spoiled.frame (sameFrame_of_log rfl rfl rfl)) fun h =>
      h.1.flush_header h.2⟩
  · rintro v ⟨hp, hc⟩
    exact ⟨hp.logged, hc.imp_right fun h =>
      crashOk_of_leadsTo v (by rw [hp.log]) (by rw [hp.log]) ⟨⟨_, h.disk⟩, h.keep⟩⟩

/-- **`commit` is atomic at every write.**  Owning the view, `commit` passes only
through views from which recovery leads to the latest commit or to the cached
contents, and ends with the latter in place. -/
theorem own_commit (hx : Exclusive X t own CommitSafe)
    (hdry : ∀ s G, CInv X s G → s.Full → allowed s "bget: no buffers") :
    Safe (CInv X) allowed t (commit t)
      (⟨gs, none, none⟩, own fun v => PinsLogged v ∧ (Spoiled v ∨ Ready v))
      fun _ γ => ∃ R, γ = (⟨gs, none, none⟩, own R) ∧ ∀ v, R v → Committed v := by
  unfold commit
  refine (own_lookLog hx (fun lg => lg.n) (S := fun w v => Pinned w.log 0 v ∧
    (Spoiled v ∨ Copying (w.last ROOTDEV) w.log 0 v)) ?_).bind ?_
  · rintro v ⟨hp, hr⟩ -
    refine ⟨hp.pinned rfl, ?_⟩
    by_cases hs : Spoiled v
    · exact .inl hs
    · exact .inr ((hr.resolve_left hs).copying hs)
  rintro n γ ⟨w, hw, -, rfl, rfl⟩
  split
  · -- the commit point lies after `write_log(); write_head()`
    have hassoc : ((writeLog t).bind fun _ => (writeHead t).bind fun _ =>
          (installTrans t).bind fun _ => clearLog.bind fun _ => writeHead t) =
        ((writeLog t).bind fun _ => writeHead t).bind fun _ =>
          (installTrans t).bind fun _ => clearLog.bind fun _ => writeHead t := by
      rw [Prog.bind_assoc]
    simp only [Prog.bind_eq]
    rw [hassoc]
    refine Safe.bind (own_writeLog hx hdry (w.last ROOTDEV) w.log) ?_
    rintro _ γ rfl
    refine (own_install hx hdry (fun _ _ => Spoiled.frame) crashOk_of_leadsTo
      (keeps_cached _ _ _)).mono ?_
    rintro _ γ rfl
    refine ⟨_, rfl, fun v hv => ?_⟩
    obtain ⟨hu, he⟩ := hv
    refine ⟨by rw [hu.log], hu.pins, he.imp_right fun h => ?_⟩
    refine ⟨by rw [hu.log]; exact h.head, fun b hb => ?_⟩
    rw [hu.log] at hb
    rw [h.done b hb, h.keep b hb]
  · rename_i hn
    have hnil : w.log.block = [] := List.length_eq_zero_iff.1 (by simpa [Log.n] using hn)
    refine safe_ret.2 ⟨_, rfl, fun v hv => ?_⟩
    obtain ⟨hp, hc⟩ := hv
    refine ⟨by rw [hp.log, hnil], fun dev b hd => ?_,
      hc.imp_right fun h => ⟨by rw [hp.log]; exact h.head, fun b hb => ?_⟩⟩
    · obtain ⟨-, j, -, hj, -⟩ := hp.pins dev b hd
      omega
    · rw [hp.log] at hb
      rw [h.rest b hb (by simp [hnil]), h.keep b hb]

end Programs

end Xv6.Fs
