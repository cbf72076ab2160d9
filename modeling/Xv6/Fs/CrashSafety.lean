import Xv6.Lib.Machine
import Xv6.Fs.Commit

/-!
# Crash safety of the log

Any number of processes run file-system operations: `begin_op`, reads, changes that
go through `log_write`, releases, `end_op` with its commit; others read blocks
without any operation open.  The machine may crash at any moment, recover, crash
again during recovery, and so on.

* `LogCall` — what a process may do.
* `LogInv` — the invariant of the log over all processes: who has an operation
  open, who commits, and what the disk holds meanwhile.
* `crash_atomic` — after a crash at any point and any number of crashed recoveries,
  a recovery that completes leaves every block outside the log as the latest
  commit left it, or every one as the operations left it, and an empty header.
-/

namespace Xv6.Fs

open Lib Function

variable {τ : Type}

/-! ## Processes -/

/-- What a process holds between calls. -/
structure Client where
  guards : List Guard
  /-- Between `begin_op` and `end_op`. -/
  inOp : Bool

/-- The calls of a process.  Blocks are changed only inside an operation, through
`log_write`, and only outside the log area; a block number is a `u32`. -/
inductive LogCall (start size : ℕ) (t : τ) (c : Client) : Prog (BState τ) Client → Prop
  | beginOp : c.inOp = false →
    LogCall start size t c (beginOp.bind fun _ => .ret { c with inOp := true })
  | read (dev b : ℕ) : LogCall start size t c
      ((read t dev b).bind fun i => .ret { c with guards := ⟨i, dev, b⟩ :: c.guards })
  | update (g : Guard) (f : Block → Block) : c.inOp = true → g ∈ c.guards → g.dev = ROOTDEV →
      ¬ InLog start size g.blockno → g.blockno < 2 ^ 32 → LogCall start size t c
        ((modify g.buf f).bind fun _ => (logWrite g.buf).bind fun _ => .ret c)
  | release (g : Guard) : g ∈ c.guards → LogCall start size t c
      ((releaseBuf g.buf).bind fun _ => .ret { c with guards := c.guards.erase g })
  | endOp : c.inOp = true → LogCall start size t c
      ((endOp t).bind fun _ => .ret { c with inOp := false })

/-- The machine after boot, no operation open. -/
def logBoot (disk : ℕ → ℕ → Block) (start size : ℕ) : Pool (BState τ) τ Client :=
  ⟨.boot disk (Log.fresh start size), fun _ => .ret ⟨[], false⟩⟩

/-! ## The invariant -/

/-- What a process does with the log. -/
inductive Role where
  /-- No operation open. -/
  | out
  /-- An operation open. -/
  | op
  /-- Inside an operation, block `b` changed and not yet logged. -/
  | touching (b : ℕ)
  /-- Committing, and knowing `R` of the view. -/
  | own (R : View → Prop)

/-- Does the process have an operation open? -/
def Role.openOps : Role → ℤ
  | .op => 1
  | .touching _ => 1
  | _ => 0

/-- The disk while nobody commits: as the latest commit left it, with the changes
since then in the cache only. -/
structure Quiet (v : View) (F : τ → Role) : Prop where
  peak : v.log.n ≤ v.peak
  short : v.log.n ≤ LOGSIZE
  home : ∀ b ∈ v.log.block, ¬ InLog v.log.start v.log.size b ∧ b < 2 ^ 32
  head : header (v.disk ROOTDEV v.log.start) = []
  base : ∀ b, ¬ InLog v.log.start v.log.size b → v.disk ROOTDEV b = v.base ROOTDEV b
  clean : ∀ b, ¬ InLog v.log.start v.log.size b → b ∉ v.log.block → (∀ t, F t ≠ .touching b) →
    v.disk ROOTDEV b = v.last ROOTDEV b

variable [Fintype τ] {start size : ℕ} {v v' : View} {F : τ → Role} {t : τ} {R : View → Prop}

/-- The invariant of the log. -/
structure LogInv (start size : ℕ) (v : View) (F : τ → Role) : Prop where
  start : v.log.start = start
  size : v.log.size = size
  count : v.log.outstanding = ∑ t, (F t).openOps
  committing : v.log.committing = true ↔ ∃ t R, F t = .own R
  unique : ∀ t t' R R', F t = .own R → F t' = .own R' → t = t'
  alone : ∀ t R, F t = .own R → v.log.outstanding = 0
  known : ∀ t R, F t = .own R → R v ∧ CommitSafe v
  quiet : (∀ t R, F t ≠ .own R) → PinsLogged v ∧ (Spoiled v ∨ Quiet v F)

theorem Role.openOps_nonneg (r : Role) : 0 ≤ r.openOps := by
  cases r <;> simp [Role.openOps]

/-- A process with an operation open is counted. -/
theorem LogInv.outstanding_pos (h : LogInv start size v F) (ht : (F t).openOps = 1) :
    1 ≤ v.log.outstanding := by
  rw [h.count, ← ht]
  exact Finset.single_le_sum (f := fun t => (F t).openOps) (fun r _ => Role.openOps_nonneg _)
    (Finset.mem_univ t)

/-- While an operation is open nobody commits. -/
theorem LogInv.no_owner (h : LogInv start size v F) (ht : (F t).openOps = 1) (r : τ)
    (R : View → Prop) : F r ≠ .own R := by
  intro hr
  have h0 := h.alone r R hr
  have h1 := h.outstanding_pos ht
  omega

/-- When no operation is open, nobody is inside one. -/
theorem LogInv.not_touching (h : LogInv start size v F) (h0 : v.log.outstanding = 0) (r : τ)
    (b : ℕ) : F r ≠ .touching b := by
  intro hr
  have h1 := h.outstanding_pos (t := r) (by rw [hr]; rfl)
  omega

variable [DecidableEq τ]

theorem openOps_update (F : τ → Role) (t : τ) (e : Role) :
    ∑ r, (update F t e r).openOps = ∑ r, (F r).openOps + e.openOps - (F t).openOps := by
  have := sum_update_add Role.openOps F t e
  omega

/-- The committing process owns the view. -/
theorem exclusive_logInv (t : τ) : Exclusive (LogInv start size) t Role.own CommitSafe where
  know hX hF := hX.known t _ hF
  move {v v' F R R'} hX hF hfr hR hC := by
    have hown : ∀ r S, update F t (Role.own R') r = .own S → r = t := by
      intro r S hr
      by_contra hne
      rw [update_of_ne hne] at hr
      exact hne (hX.unique r t S R hr hF)
    refine ⟨hfr.start.trans hX.start, hfr.size.trans hX.size, ?_, ?_, ?_, ?_, ?_, ?_⟩
    · rw [openOps_update, hF, hfr.outstanding, hX.count]
      simp [Role.openOps]
    · rw [hfr.committing, hX.committing]
      exact ⟨fun _ => ⟨t, R', by simp⟩, fun _ => ⟨t, R, hF⟩⟩
    · intro r r' S S' hr hr'
      rw [hown r S hr, hown r' S' hr']
    · intro r S _
      rw [hfr.outstanding]
      exact hX.alone t R hF
    · intro r S hr
      obtain rfl := hown r S hr
      rw [update_self] at hr
      cases hr
      exact ⟨hR, hC⟩
    · intro hno
      exact absurd (update_self t (Role.own R') F) (hno t R')

/-! ## Steps while nobody commits -/

/-- A process that is not committing moves while nobody is. -/
theorem LogInv.step {e : Role} (h : LogInv start size v F) (hno : ∀ r R, F r ≠ .own R)
    (he : ∀ R, e ≠ .own R) (hstart : v'.log.start = v.log.start)
    (hsize : v'.log.size = v.log.size) (hcommitting : v'.log.committing = v.log.committing)
    (hcount : v'.log.outstanding = v.log.outstanding + e.openOps - (F t).openOps)
    (hpins : PinsLogged v → PinsLogged v') (hspoiled : Spoiled v → Spoiled v')
    (hquiet : Quiet v F → Quiet v' (update F t e)) :
    LogInv start size v' (update F t e) := by
  have hno' : ∀ r R, update F t e r ≠ .own R := by
    intro r R
    by_cases hr : r = t
    · subst hr
      rw [update_self]
      exact he R
    · rw [update_of_ne hr]
      exact hno r R
  obtain ⟨hp, hq⟩ := h.quiet hno
  refine ⟨hstart.trans h.start, hsize.trans h.size, ?_, ?_, fun r _ R _ hr => absurd hr (hno' r R),
    fun r R hr => absurd hr (hno' r R), fun r R hr => absurd hr (hno' r R),
    fun _ => ⟨hpins hp, hq.imp hspoiled hquiet⟩⟩
  · rw [openOps_update, hcount, h.count]
  · rw [hcommitting, h.committing]
    exact ⟨fun ⟨r, R, hr⟩ => absurd hr (hno r R), fun ⟨r, R, hr⟩ => absurd hr (hno' r R)⟩

omit [Fintype τ] in
/-- Whether some process is touching a block, after a move. -/
theorem not_touching_update {e : Role} {b : ℕ} (hF : F t ≠ .touching b)
    (h : ∀ r, update F t e r ≠ .touching b) (r : τ) : F r ≠ .touching b := by
  by_cases hr : r = t
  · subst hr
    exact hF
  · have := h r
    rwa [update_of_ne hr] at this

theorem LogInv.enter (h : LogInv start size v F) (ht : F t = .out)
    (hw : v.log.committing = false) :
    LogInv start size { v with log := v.log.enter } (update F t .op) := by
  have hno : ∀ r R, F r ≠ .own R := by
    intro r R hr
    have := h.committing.2 ⟨r, R, hr⟩
    rw [hw] at this
    cases this
  refine h.step hno (fun R => by simp) rfl rfl rfl ?_ id id fun hq => ?_
  · rw [ht]
    simp [Log.enter, Role.openOps]
  · exact ⟨hq.peak, hq.short, hq.home, hq.head, hq.base, fun b hb hbl hnt =>
      hq.clean b hb hbl (not_touching_update (by simp [ht]) hnt)⟩

/-- A block is changed in the cache. -/
theorem LogInv.touch (h : LogInv start size v F) (ht : F t = .op) (b : ℕ) (d : Block) :
    LogInv start size (v.leave ROOTDEV b d) (update F t (.touching b)) := by
  refine h.step (h.no_owner (t := t) (by rw [ht]; rfl)) (fun R => by simp) rfl rfl rfl ?_ id id
    fun hq => ?_
  · rw [ht]
    simp [View.leave, Role.openOps]
  · refine ⟨hq.peak, hq.short, hq.home, hq.head, hq.base, fun c hc hcl hnt => ?_⟩
    have hcb : c ≠ b := by
      rintro rfl
      exact hnt t (by simp)
    simp only [View.leave, storeAt_root]
    rw [update_of_ne hcb]
    exact hq.clean c hc hcl (not_touching_update (by simp [ht]) hnt)

/-- The changed block is recorded in the log and pinned. -/
theorem LogInv.record {b : ℕ} {lg : Log} (h : LogInv start size v F) (ht : F t = .touching b)
    (hb : ¬ InLog start size b) (hb32 : b < 2 ^ 32) (hrec : v.log.record b = some lg) :
    LogInv start size { v.pin ROOTDEV b with log := lg, peak := max v.peak lg.n }
      (update F t .op) := by
  obtain ⟨hstart, hsize, hout, hcom⟩ := Log.record_fields hrec
  refine h.step (h.no_owner (t := t) (by rw [ht]; rfl)) (fun R => by simp) hstart hsize
    hcom ?_ ?_ ?_
    fun hq => ?_
  · rw [ht, hout]
    simp [Role.openOps]
  · rintro hp dev c (hd | hd)
    · obtain ⟨hdev, hc⟩ := hp dev c hd
      exact ⟨hdev, (Log.mem_record hrec).2 (Or.inr hc)⟩
    · cases hd
      exact ⟨rfl, (Log.mem_record hrec).2 (Or.inl rfl)⟩
  · intro hs
    have : lg.size ≤ max v.peak lg.n := by
      rw [hsize]
      exact le_max_of_le_left hs
    exact this
  · refine ⟨le_max_right _ _, ?_, ?_, ?_, ?_, ?_⟩
    · rcases Log.record_eq_some_iff.1 hrec with ⟨-, rfl⟩ | ⟨-, hn, rfl⟩
      · exact hq.short
      · simp only [Log.n, List.length_append, List.length_singleton] at hn ⊢
        omega
    · intro c hc
      simp only [hstart, hsize]
      rcases (Log.mem_record hrec).1 hc with rfl | hc
      · rw [h.start, h.size]
        exact ⟨hb, hb32⟩
      · exact hq.home c hc
    · simp only [hstart]
      exact hq.head
    · simp only [hstart, hsize]
      exact hq.base
    · simp only [hstart, hsize]
      intro c hc hcl hnt
      have hcl' : c ≠ b ∧ c ∉ v.log.block := by
        rw [Log.mem_record hrec] at hcl
        exact not_or.1 hcl
      refine hq.clean c hc hcl'.2 (not_touching_update ?_ hnt)
      rw [ht]
      intro he
      cases he
      exact hcl'.1 rfl

/-- `end_op` of an operation that is not the last. -/
theorem LogInv.leave (h : LogInv start size v F) (ht : F t = .op) :
    LogInv start size { v with log := v.log.leave } (update F t .out) := by
  refine h.step (h.no_owner (t := t) (by rw [ht]; rfl)) (fun R => by simp) rfl rfl rfl ?_ id id
    fun hq => ?_
  · rw [ht]
    simp [Log.leave, Role.openOps]
  · exact ⟨hq.peak, hq.short, hq.home, hq.head, hq.base, fun b hb hbl hnt =>
      hq.clean b hb hbl (not_touching_update (by simp [ht]) hnt)⟩

/-! ## Starting and finishing a commit -/

/-- `end_op` of the last operation: the caller now owns the view. -/
theorem LogInv.startCommit (h : LogInv start size v F) (ht : F t = .op)
    (h0 : v.log.leave.outstanding = 0) :
    LogInv start size { v with log := { v.log.leave with committing := true } }
      (update F t (.own fun v => PinsLogged v ∧ (Spoiled v ∨ Ready v))) := by
  have hno := h.no_owner (t := t) (by rw [ht]; rfl)
  have h1 := h.leave ht
  have hnt : ∀ r b, update F t .out r ≠ .touching b := fun r b => h1.not_touching h0 r b
  obtain ⟨hp, hq⟩ := h1.quiet fun r R => by
    by_cases hr : r = t
    · subst hr; simp
    · rw [update_of_ne hr]; exact hno r R
  have hready : Spoiled { v with log := v.log.leave } ∨ Ready { v with log := v.log.leave } :=
    hq.imp_right fun hq => ⟨hq.peak, hq.short, hq.home, hq.head, hq.base, fun b hb hbl =>
      hq.clean b hb hbl fun r => hnt r b⟩
  have hsafe : CommitSafe { v with log := { v.log.leave with committing := true } } := by
    refine ⟨hp, ?_⟩
    by_cases hs : Spoiled { v with log := v.log.leave }
    · exact .inl hs
    · exact .inr ((hready.resolve_left hs).copying hs).crashOk
  have hown : ∀ r S, update F t
      (Role.own fun v => PinsLogged v ∧ (Spoiled v ∨ Ready v)) r = .own S → r = t := by
    intro r S hr
    by_contra hne
    rw [update_of_ne hne] at hr
    exact hno r S hr
  refine ⟨h.start, h.size, ?_, ?_, ?_, fun _ _ _ => h0, ?_, ?_⟩
  · have := h1.count
    rw [openOps_update] at this ⊢
    simpa [Role.openOps] using this
  · exact ⟨fun _ => ⟨t, _, update_self _ _ _⟩, fun _ => rfl⟩
  · intro r r' S S' hr hr'
    rw [hown r S hr, hown r' S' hr']
  · intro r S hr
    obtain rfl := hown r S hr
    rw [update_self] at hr
    cases hr
    exact ⟨⟨hp, hready.imp id fun h => ⟨h.peak, h.short, h.home, h.head, h.base, h.clean⟩⟩, hsafe⟩
  · intro hnone
    exact absurd (update_self t _ F) (hnone t _)

/-- The second section of `end_op`: what is in the cache is now the latest commit. -/
theorem LogInv.finish (h : LogInv start size v F) (ht : F t = .own R)
    (hR : ∀ v, R v → Committed v) :
    LogInv start size { v with log := { v.log with committing := false }, base := v.last }
      (update F t .out) := by
  have hc := hR v (h.known t R ht).1
  have hno : ∀ r S, update F t .out r ≠ .own S := by
    intro r S hr
    by_cases hrt : r = t
    · subst hrt; simp at hr
    · rw [update_of_ne hrt] at hr
      exact hrt (h.unique r t S R hr ht)
  refine ⟨h.start, h.size, ?_, ?_, fun r _ S _ hr => absurd hr (hno r S),
    fun r S hr => absurd hr (hno r S), fun r S hr => absurd hr (hno r S), fun _ => ?_⟩
  · rw [openOps_update, ht]
    simpa [Role.openOps] using h.count
  · simp [hno]
  · refine ⟨fun dev b hd => absurd hd (hc.pins dev b), hc.disk.imp_right fun hs => ?_⟩
    have hblock : v.log.block = [] := hc.block
    exact ⟨by simp [Log.n, hblock], by simp [Log.n, hblock], by simp [hblock], hs.head, hs.home,
      fun b hb _ _ => hs.home b hb⟩

/-! ## Every call keeps the invariant -/

/-- What is known of a process between calls. -/
def Between (_ : τ) (c : Client) (γ : Held × Role) : Prop :=
  γ = (⟨c.guards, none, none⟩, if c.inOp then .op else .out)

section Calls

variable {allowed : BState τ → String → Prop} {c : Client} {gs : List Guard}

theorem safe_beginOp : Safe (CInv (LogInv start size)) allowed t beginOp (⟨gs, none, none⟩, .out)
    fun _ γ => γ = (⟨gs, none, none⟩, .op) := by
  refine safe_await fun s G hI hG hw => ?_
  have ht : (Prod.snd ∘ G) t = .out := by simp [hG]
  have hfree : s.log.committing = false := by
    have := mt (Log.mustWait_iff s.log).2 (by simpa using hw)
    simpa using (not_or.1 this).1
  exact ⟨_, CInv.setLog s.base hI hG (hI.2.enter ht hfree), rfl⟩

theorem safe_update {g : Guard} (hg : g ∈ gs) (hdev : g.dev = ROOTDEV)
    (hout : ¬ InLog start size g.blockno) (h32 : g.blockno < 2 ^ 32) (f : Block → Block)
    (hmsg : ∀ s msg, msg ≠ "bget: no buffers" → allowed s msg) :
    Safe (CInv (LogInv start size)) allowed t
      ((modify g.buf f).bind fun _ => logWrite g.buf) (⟨gs, none, none⟩, .op)
      fun _ γ => γ = (⟨gs, none, none⟩, .op) := by
  refine (safe_modify (Q := fun e => e = .touching g.blockno) hg (Or.inl rfl) f
    fun v F hX ht => ?_).bind ?_
  · rw [hdev]
    exact ⟨_, hX.touch ht g.blockno _, rfl⟩
  rintro _ ⟨h, e⟩ ⟨rfl, rfl⟩
  refine (safe_logWrite (Q := fun e => e = .op) hg (Or.inr rfl)
    (fun s _ _ _ _ => hmsg s _ (by decide))
    (fun s _ _ _ _ => hmsg s _ (by decide)) (fun s _ _ _ _ => hmsg s _ (by decide))
    fun v F lg hX ht hrec => ?_).mono ?_
  · rw [hdev]
    exact ⟨_, hX.record ht hout h32 hrec, rfl⟩
  · rintro _ ⟨h, e⟩ ⟨rfl, rfl⟩
    rfl

theorem safe_endOp (hdry : ∀ s G, CInv (LogInv start size) s G → s.Full →
      allowed s "bget: no buffers")
    (hmsg : ∀ s msg, msg ≠ "bget: no buffers" → allowed s msg) :
    Safe (CInv (LogInv start size)) allowed t (endOp t) (⟨gs, none, none⟩, .op)
      fun _ γ => γ = (⟨gs, none, none⟩, .out) := by
  unfold endOp
  refine Safe.bind (M := fun last γ => γ = (⟨gs, none, none⟩, if last then
    .own fun v => PinsLogged v ∧ (Spoiled v ∨ Ready v) else .out)) (safe_critical ?_ ?_) ?_
  · intro s G last s' hI hG hsec
    have ht : (Prod.snd ∘ G) t = .op := by simp [hG]
    unfold leaveSection at hsec
    split at hsec
    · cases hsec
    split at hsec
    · rename_i h0
      simp only [Except.ok.injEq, Prod.mk.injEq] at hsec
      obtain ⟨rfl, rfl⟩ := hsec
      exact ⟨_, CInv.setLog s.base hI hG (hI.2.startCommit ht h0), rfl⟩
    · simp only [Except.ok.injEq, Prod.mk.injEq] at hsec
      obtain ⟨rfl, rfl⟩ := hsec
      exact ⟨_, CInv.setLog s.base hI hG (hI.2.leave ht), rfl⟩
  · intro s G msg hI hG hsec
    unfold leaveSection at hsec
    split at hsec
    · cases hsec
      exact hmsg s _ (by decide)
    · split at hsec <;> cases hsec
  rintro last γ rfl
  cases last with
  | false => exact safe_ret.2 rfl
  | true =>
    refine (own_commit (exclusive_logInv t) hdry).bind ?_
    rintro _ γ ⟨R, rfl, hR⟩
    refine safe_change fun s G hI hG => ?_
    have ht : (Prod.snd ∘ G) t = .own R := by simp [hG]
    exact ⟨_, CInv.setLog s.last hI hG (hI.2.finish ht hR), rfl⟩

/-- Every call of a process keeps the cache and the log in order. -/
theorem logCall_safe (hdry : ∀ s G, CInv (LogInv start size) s G → s.Full →
      allowed s "bget: no buffers")
    (hmsg : ∀ s msg, msg ≠ "bget: no buffers" → allowed s msg) (t : τ) (c : Client)
    (γ : Held × Role) (p : Prog (BState τ) Client) (hγ : Between t c γ)
    (hc : LogCall start size t c p) :
    Safe (CInv (LogInv start size)) allowed t p γ (Between t) := by
  cases hγ
  cases hc with
  | beginOp hop =>
    rw [hop]
    refine safe_beginOp.bind ?_
    rintro _ γ rfl
    exact safe_ret.2 rfl
  | read dev b =>
    refine (safe_read hdry).bind ?_
    rintro i γ rfl
    exact safe_ret.2 rfl
  | update g f hop hg hdev hout h32 =>
    rw [hop, ← Prog.bind_assoc]
    refine (safe_update hg hdev hout h32 f hmsg).bind ?_
    rintro _ γ rfl
    exact safe_ret.2 (by rw [Between, hop]; rfl)
  | release g hg =>
    refine (safe_releaseBuf hg fun m => by simp).bind ?_
    rintro _ γ rfl
    exact safe_ret.2 rfl
  | endOp hop =>
    rw [hop]
    refine (safe_endOp hdry hmsg).bind ?_
    rintro _ γ rfl
    exact safe_ret.2 rfl

/-- The machine starts in order on a disk with an empty log header. -/
theorem logBoot_ok {disk : ℕ → ℕ → Block} (hhead : header (disk ROOTDEV start) = []) :
    (logBoot disk start size : Pool (BState τ) τ Client).Ok (CInv (LogInv start size)) allowed
      Between := by
  refine ⟨fun _ => (.empty, .out), ⟨CacheInv.boot disk (Log.fresh start size), ?_⟩,
    fun _ => Or.inl rfl⟩
  refine ⟨rfl, rfl, ?_, ?_, ?_, ?_, ?_, fun _ => ⟨?_, Or.inr ⟨?_, ?_, ?_, ?_, ?_, ?_⟩⟩⟩
  · simp [BState.view, logBoot, BState.boot, Log.fresh, Role.openOps]
  · simp [BState.view, logBoot, BState.boot, Log.fresh]
  · simp
  · simp
  · simp
  · intro dev b hd
    simp [BState.view, logBoot, BState.boot] at hd
  · simp [BState.view, logBoot, BState.boot]
  · simp [BState.view, logBoot, BState.boot, Log.n, Log.fresh]
  · simp [BState.view, logBoot, BState.boot, Log.fresh]
  · exact hhead
  · exact fun _ _ => rfl
  · exact fun _ _ _ _ => rfl

/-- The invariant of cache and log in every reachable state. -/
theorem logInv_of_reachable {disk : ℕ → ℕ → Block} (hhead : header (disk ROOTDEV start) = [])
    {P : Pool (BState τ) τ Client}
    (hP : Pool.Reachable (LogCall start size) (logBoot disk start size) P) :
    ∃ G : τ → Held × Role, CInv (LogInv start size) P.shared G := by
  obtain ⟨G, hI, -⟩ := (Pool.sound (logCall_safe (fun _ _ _ _ => trivial) fun _ _ _ => trivial)
    (logBoot_ok hhead) hP).post
  exact ⟨G, hI⟩

end Calls

omit [DecidableEq τ] in
/-- At a crash the disk leads to the latest commit or, during a commit, to the
cached contents. -/
theorem LogInv.crashOk (h : LogInv start size v F) (hpeak : v.peak < size) :
    CrashOk v ∧ (v.log.committing = false →
      Recoverable start size (v.base ROOTDEV) (v.disk ROOTDEV) [] ∧
        ∀ b, ¬ InLog start size b → v.disk ROOTDEV b = v.base ROOTDEV b) := by
  have hs : ¬ Spoiled v := by
    unfold Spoiled
    rw [h.size]
    omega
  by_cases hno : ∀ r R, F r ≠ .own R
  · have hq := (h.quiet hno).2.resolve_left hs
    have hhead := hq.head
    have hbase := hq.base
    rw [h.start] at hhead
    rw [h.start, h.size] at hbase
    have hrec := Recoverable.of_empty (Nat.zero_lt_of_lt hpeak) hhead hbase
    refine ⟨Or.inl ⟨[], ?_⟩, fun _ => ⟨hrec, hbase⟩⟩
    rw [h.start, h.size]
    exact hrec
  · push Not at hno
    obtain ⟨r, R, hr⟩ := hno
    refine ⟨(h.known r R hr).2.2.resolve_left hs, fun hc => ?_⟩
    have := h.committing.2 ⟨r, R, hr⟩
    rw [hc] at this
    cases this

/-- **Crash atomicity of the log.**  Start from a disk with an empty log header, let
any processes run any operations, with never more blocks in the log than fit its
area, and crash anywhere.  Once a recovery completes, after any number of
recoveries cut short, every block outside the log is as the latest commit left it
or every one is as the operations left it; the former for certain while no commit
runs, when those are also the blocks on the disk.  The header is empty. -/
theorem crash_atomic (disk disk' : ℕ → ℕ → Block) (start size : ℕ)
    (hhead : header (disk ROOTDEV start) = []) (P : Pool (BState τ) τ Client)
    (hP : Pool.Reachable (LogCall start size) (logBoot disk start size) P)
    (hpeak : P.shared.peak < size) (hr : Recovered start size P.shared.disk disk') :
    header (disk' ROOTDEV start) = [] ∧
      ((∀ b, ¬ InLog start size b → disk' ROOTDEV b = P.shared.base ROOTDEV b) ∨
        ∀ b, ¬ InLog start size b → disk' ROOTDEV b = P.shared.last ROOTDEV b) ∧
      (P.shared.log.committing = false → ∀ b, ¬ InLog start size b →
        P.shared.disk ROOTDEV b = P.shared.base ROOTDEV b ∧
          disk' ROOTDEV b = P.shared.base ROOTDEV b) := by
  obtain ⟨G, -, hX⟩ := logInv_of_reachable hhead hP
  obtain ⟨hok, hquiet⟩ := hX.crashOk hpeak
  have hrecovers : ∀ T, (P.shared.view (Prod.fst ∘ G)).RecoversTo T →
      header (disk' ROOTDEV start) = [] ∧ ∀ b, ¬ InLog start size b → disk' ROOTDEV b = T b := by
    rintro T ⟨l, hl⟩
    rw [hX.start, hX.size] at hl
    exact recovered_of_recoverable hl hr
  refine ⟨?_, ?_, fun hc b hb => ?_⟩
  · rcases hok with h | h
    · exact (hrecovers _ h).1
    · exact (hrecovers _ h).1
  · exact hok.imp (fun h => (hrecovers _ h).2) fun h => (hrecovers _ h).2
  · obtain ⟨hrec, hbase⟩ := hquiet hc
    exact ⟨hbase b hb, (recovered_of_recoverable hrec hr).2 b hb⟩

/-- One operation that puts 5 into block 59, up to its `end_op`. -/
def setFive : List (Unit × (Client → Prog (BState Unit) Client)) :=
  [((), fun c => if c.inOp = false then beginOp.bind fun _ => .ret { c with inOp := true }
      else (read () 1 59).bind fun i => .ret { c with guards := ⟨i, 1, 59⟩ :: c.guards }),
   ((), fun c => (read () 1 59).bind fun i => .ret { c with guards := ⟨i, 1, 59⟩ :: c.guards }),
   ((), fun c => match c with
      | ⟨⟨i, 1, 59⟩ :: gs, true⟩ => (modify i fun d => d.setWord 0 5).bind fun _ =>
          (logWrite i).bind fun _ => .ret ⟨⟨i, 1, 59⟩ :: gs, true⟩
      | c => (read () 1 59).bind fun i => .ret { c with guards := ⟨i, 1, 59⟩ :: c.guards }),
   ((), fun c => match c with
      | ⟨g :: gs, b⟩ => (releaseBuf g.buf).bind fun _ => .ret ⟨(g :: gs).erase g, b⟩
      | c => (read () 1 59).bind fun i => .ret { c with guards := ⟨i, 1, 59⟩ :: c.guards })]

theorem setFive_calls (c : Unit × (Client → Prog (BState Unit) Client)) (hc : c ∈ setFive)
    (l : Client) : LogCall 2 30 c.1 l (c.2 l) := by
  simp only [setFive, List.mem_cons, List.not_mem_nil, or_false] at hc
  rcases hc with rfl | rfl | rfl | rfl
  · simp only
    split
    · rename_i h
      exact .beginOp h
    · exact .read 1 59
  · exact .read 1 59
  · simp only
    split
    · rename_i i gs
      exact .update ⟨i, 1, 59⟩ _ rfl List.mem_cons_self rfl (by simp [InLog]) (by simp)
    · exact .read 1 59
  · simp only
    split
    · exact .release _ List.mem_cons_self
    · exact .read 1 59

/-- The `end_op` of that operation, cut short after 35 steps: the header is on disk,
block 59 is not. -/
def cutCommit (s : BState Unit) : Prog (BState Unit) Client × BState Unit :=
  Prog.stepsN 35 ((endOp ()).bind fun _ => .ret ⟨[], false⟩) s

/-- A recovery cut short after ten steps. -/
def cutRecovery (disk : ℕ → ℕ → Block) : Prog (BState Unit) Unit × BState Unit :=
  Prog.stepsN 10 (recoverFromLog ()) (.boot disk (Log.fresh 2 30))

/-- A recovery that completes. -/
def fullRecovery (disk : ℕ → ℕ → Block) : Option (BState Unit) :=
  match (recoverFromLog ()).run (.boot disk (Log.fresh 2 30)) with
  | .done _ s => some s
  | _ => none

theorem cutCommit_reachable {P Q : Pool (BState Unit) Unit Client}
    (hQ : Pool.Reachable (LogCall 2 30) P Q) (hthread : Q.thread () = .ret ⟨[], true⟩) :
    Pool.Reachable (LogCall 2 30) P ⟨(cutCommit Q.shared).2,
      update Q.thread () (cutCommit Q.shared).1⟩ := by
  have hlive : Q.Live := by
    intro t msg
    rw [hthread]
    simp
  exact hQ.trans (Pool.reachable_of_call hlive hthread (LogCall.endOp rfl)
    (Prog.visited_stepsN 35 _ _))

theorem fullRecovery_recovered {disk : ℕ → ℕ → Block} {s : BState Unit}
    (hs : fullRecovery disk = some s) : Recovered 2 30 disk s.disk := by
  unfold fullRecovery at hs
  split at hs
  · rename_i hdone
    cases hs
    exact .done hdone
  · cases hs

theorem recovered_of_cut {disk : ℕ → ℕ → Block} {s : BState Unit}
    (hs : fullRecovery (cutRecovery disk).2.disk = some s) : Recovered 2 30 disk s.disk :=
  Recovered.crash (p := (cutRecovery disk).1) (s := (cutRecovery disk).2)
    (Prog.visited_stepsN 10 _ _) (fullRecovery_recovered hs)

/-- The peak, block 59 at the crash, and block 59 after the recoveries. -/
def setFiveTrace (P : Pool (BState Unit) Unit Client) : Option (ℕ × ℕ × ℕ) :=
  match P.thread () with
  | .ret ⟨[], true⟩ => (fullRecovery (cutRecovery (cutCommit P.shared).2.disk).2.disk).map fun s =>
      ((cutCommit P.shared).2.peak, ((cutCommit P.shared).2.disk 1 59).word 0, (s.disk 1 59).word 0)
  | _ => none

theorem crash_atomic_setFive : ∃ (P : Pool (BState Unit) Unit Client) (disk' : ℕ → ℕ → Block),
    Pool.Reachable (LogCall 2 30) (logBoot (fun _ _ => .zero) 2 30) P ∧ P.shared.peak < 30 ∧
      Recovered 2 30 P.shared.disk disk' ∧ (P.shared.disk 1 59).word 0 = 0 ∧
      (disk' 1 59).word 0 = 5 ∧ header (disk' ROOTDEV 2) = [] := by
  have hrun : (Pool.runCalls setFive (logBoot (fun _ _ => .zero) 2 30)).bind setFiveTrace =
      some (1, 0, 5) := by decide +kernel
  obtain ⟨Q, hQ, htrace⟩ := Option.bind_eq_some_iff.1 hrun
  have hreach := Pool.reachable_of_runCalls setFive_calls (fun _ _ => by simp [logBoot]) hQ
  unfold setFiveTrace at htrace
  split at htrace
  · rename_i hthread
    obtain ⟨s, hs, hfacts⟩ := Option.map_eq_some_iff.1 htrace
    simp only [Prod.mk.injEq] at hfacts
    obtain ⟨hpeak, hcut, hfive⟩ := hfacts
    have hP := cutCommit_reachable hreach hthread
    have hrecovered := recovered_of_cut hs
    have hroom : (cutCommit Q.shared).2.peak < 30 := by omega
    have hhead : header ((fun _ _ => Block.zero : ℕ → ℕ → Block) ROOTDEV 2) = [] := by
      rw [header_eq_nil_iff, Block.word_zero]
    exact ⟨_, s.disk, hP, hroom, hrecovered, hcut, hfive,
      (crash_atomic _ _ 2 30 hhead _ hP hroom hrecovered).1⟩
  · cases htrace

end Xv6.Fs
