import Xv6.Fs.Cache

/-!
# Rules for clients of the buffer cache

`CacheInv` is kept by everything a process does with its own buffers.  Whoever
builds on the cache (the log, the file system) cares about something else: what
is on the disk, what was last left in each block, which blocks are pinned, and
the log.  That is the `View`.  `CInv X` is the cache invariant together with an
invariant `X` of the view, which a client chooses with its own ghost values.

There is one rule for each operation of `bio.rs` and `log.rs`: reading and
releasing do not move the view, the others move it as the rule says, so a client
proves what its moves do to `X` and never looks at a buffer.

* `safe_read`, `safe_releaseBuf`, `safe_dataOf`, `safe_modify`, `safe_write`,
  `safe_logWrite`, `safe_lookLog`.
-/

namespace Xv6.Fs

open Lib Function

variable {τ E : Type}

/-! ## The view -/

/-- What the layers above the cache can tell apart. -/
@[ext]
structure View where
  disk : ℕ → ℕ → Block
  last : ℕ → ℕ → Block
  base : ℕ → ℕ → Block
  peak : ℕ
  log : Log
  /-- The blocks pinned in the cache by `B_DIRTY`, other than the one a process is
  just writing out. -/
  dirty : ℕ → ℕ → Prop

/-- Some process is about to transfer the buffer. -/
def Hot (G : τ → Held) (i : Fin NBUF) : Prop := ∃ t, (G t).mark = some (.hot, i)

/-- The view of a state. -/
def BState.view (s : BState τ) (G : τ → Held) : View where
  disk := s.disk
  last := s.last
  base := s.base
  peak := s.peak
  log := s.log
  dirty := fun dev b => ∃ i, (s.buf i).tag = (dev, b) ∧ (s.buf i).dirty = true ∧ ¬ Hot G i

namespace View

/-- A holder leaves `d` in a block. -/
def leave (v : View) (dev b : ℕ) (d : Block) : View := { v with last := storeAt v.last dev b d }

/-- A block is pinned. -/
def pin (v : View) (dev b : ℕ) : View :=
  { v with dirty := fun dev' b' => v.dirty dev' b' ∨ (dev', b') = (dev, b) }

/-- A block is about to be written out. -/
def unpin (v : View) (dev b : ℕ) : View :=
  { v with dirty := fun dev' b' => v.dirty dev' b' ∧ (dev', b') ≠ (dev, b) }

/-- What was last left in a block reaches the disk. -/
def flush (v : View) (dev b : ℕ) : View :=
  { v with disk := storeAt v.disk dev b (v.last dev b) }

end View

section Views

variable [DecidableEq τ] {G : τ → Held} {t : τ} {h' : Held}

/-- What a process does without marking a buffer leaves the hot ones hot. -/
theorem hot_update (hm : ∀ i, h'.mark = some (.hot, i) ↔ (G t).mark = some (.hot, i))
    (i : Fin NBUF) : Hot (update G t h') i ↔ Hot G i := by
  refine exists_congr fun q => ?_
  by_cases hq : q = t
  · subst hq
    rw [update_self, hm]
  · rw [update_of_ne hq]

/-- The view only reads tags and dirty flags of the buffers, and hot marks. -/
theorem view_modBuf (s : BState τ) (i : Fin NBUF) (f : Buf τ → Buf τ)
    (htag : (f (s.buf i)).tag = (s.buf i).tag) (hdirty : (f (s.buf i)).dirty = (s.buf i).dirty)
    (hm : ∀ i, h'.mark = some (.hot, i) ↔ (G t).mark = some (.hot, i)) :
    (s.modBuf i f).view (update G t h') = s.view G := by
  have h := modBuf_proj (fun x => (x.tag, x.dirty)) s i f (by simp [htag, hdirty])
  have hj : ∀ j, ((s.modBuf i f).buf j).tag = (s.buf j).tag ∧
      ((s.modBuf i f).buf j).dirty = (s.buf j).dirty := fun j => Prod.ext_iff.1 (congrFun h j)
  simp only [BState.view, (hj _).1, (hj _).2, hot_update hm]
  rfl

/-- Changing what a process holds does not move the view. -/
theorem view_ghost (s : BState τ)
    (hm : ∀ i, h'.mark = some (.hot, i) ↔ (G t).mark = some (.hot, i)) :
    s.view (update G t h') = s.view G := by
  simp only [BState.view, hot_update hm]

/-- Recycling an idle buffer does not move the view. -/
theorem view_recycle (s : BState τ) (i : Fin NBUF) (dev b : ℕ) (h : (s.buf i).idle = true)
    (hm : ∀ i, h'.mark = some (.hot, i) ↔ (G t).mark = some (.hot, i)) :
    (s.modBuf i (.recycle dev b)).view (update G t h') = s.view G := by
  have hclean := ((Buf.idle_iff _).1 h).2
  have hdirty : ∀ dev' b', (∃ j, ((s.modBuf i (.recycle dev b)).buf j).tag = (dev', b') ∧
      ((s.modBuf i (.recycle dev b)).buf j).dirty = true ∧ ¬ Hot G j) ↔
      ∃ j, (s.buf j).tag = (dev', b') ∧ (s.buf j).dirty = true ∧ ¬ Hot G j := by
    intro dev' b'
    refine exists_congr fun j => ?_
    by_cases hj : j = i
    · subst hj
      simp [Buf.recycle, hclean]
    · rw [modBuf_buf_of_ne s _ hj]
  simp only [BState.view, hot_update hm, hdirty]
  rfl

theorem view_putSection (s : BState τ) (i : Fin NBUF)
    (hm : ∀ i, h'.mark = some (.hot, i) ↔ (G t).mark = some (.hot, i)) :
    (putSection i s).view (update G t h') = s.view G := by
  have h := view_modBuf s i (fun x => { x with refcnt := x.refcnt - 1 }) rfl rfl hm
  unfold putSection
  simp only
  split_ifs
  · exact h
  · exact h

end Views

section Rules

variable [Fintype τ] [DecidableEq τ] {s : BState τ} {G : τ → Held} {t : τ} {g : Guard}
  {gs : List Guard} {r : Option (Mark × Fin NBUF)}

omit [DecidableEq τ] in
/-- A held buffer is locked by its holder, valid, and has the data last left in its
block. -/
theorem CacheInv.held (hI : CacheInv s G) (hG : G t = ⟨gs, none, r⟩) (hg : g ∈ gs) :
    (s.buf g.buf).lock = some t ∧ (s.buf g.buf).valid = true ∧ (s.buf g.buf).tag = g.tag ∧
      (s.buf g.buf).data = s.last g.dev g.blockno := by
  have hguards := hI.datas.guards t
  have htags := hI.locks.tags t
  have hlock := hI.locks.lock t g.buf
  rw [hG] at hguards htags hlock
  have hv := hguards g hg
  have ht : (s.buf g.buf).tag = g.tag := htags g hg
  have hd : (s.buf g.buf).data = s.last (s.buf g.buf).tag.1 (s.buf g.buf).tag.2 :=
    hI.datas.content g.buf hv
  rw [ht] at hd
  exact ⟨hlock.2 (List.mem_map_of_mem hg), hv, ht, hd⟩

omit [DecidableEq τ] in
/-- Changing one referenced buffer changes whether its own block is pinned, and
nothing else: no other buffer pins that block. -/
theorem dirty_modBuf (hI : CacheInv s G) (hg : g ∈ (G t).all) {f : Buf τ → Buf τ} {H : τ → Held}
    (htag : (f (s.buf g.buf)).tag = (s.buf g.buf).tag)
    (hhot : ∀ j, j ≠ g.buf → (Hot H j ↔ Hot G j)) (dev b : ℕ) :
    ((s.modBuf g.buf f).view H).dirty dev b ↔
      ((dev, b) = g.tag ∧ (f (s.buf g.buf)).dirty = true ∧ ¬ Hot H g.buf) ∨
        ((s.view G).dirty dev b ∧ (dev, b) ≠ g.tag) := by
  have hgt : (s.buf g.buf).tag = g.tag := hI.locks.tags t g hg
  constructor
  · rintro ⟨j, ht, hd, hh⟩
    by_cases hj : j = g.buf
    · subst hj
      rw [modBuf_buf_self] at ht hd
      exact .inl ⟨by rw [← ht, htag, hgt], hd, hh⟩
    · rw [modBuf_buf_of_ne s _ hj] at ht hd
      refine .inr ⟨⟨j, ht, hd, fun h => hh ((hhot j hj).2 h)⟩, ?_⟩
      rw [← ht, ← hgt]
      exact hI.tag_ne hg hj (Or.inr (Or.inr hd))
  · rintro (⟨hx, hd, hh⟩ | ⟨⟨j, ht, hd, hh⟩, hx⟩)
    · exact ⟨g.buf, by rw [modBuf_buf_self, htag, hgt, hx], by rwa [modBuf_buf_self], hh⟩
    · have hj : j ≠ g.buf := by
        rintro rfl
        exact hx (ht.symm.trans hgt)
      refine ⟨j, ?_, ?_, fun h => hh ((hhot j hj).1 h)⟩
      · rwa [modBuf_buf_of_ne s _ hj]
      · rwa [modBuf_buf_of_ne s _ hj]

omit [Fintype τ] in
/-- A process that is not hot itself may mark one buffer hot. -/
theorem hot_mark (hr : ∀ i, (G t).mark ≠ some (.hot, i)) {i j : Fin NBUF}
    {p : Option (Stage × Guard)}
    (hj : j ≠ i) : Hot (update G t ⟨gs, p, some (.hot, i)⟩) j ↔ Hot G j := by
  refine exists_congr fun q => ?_
  by_cases hq : q = t
  · subst hq
    simp [hr j, Ne.symm hj]
  · rw [update_of_ne hq]

/-- The dirty blocks after a held buffer is flagged for the log. -/
theorem view_pin (hI : CacheInv s G) (hG : G t = ⟨gs, none, r⟩) (hg : g ∈ gs)
    (hr : r = none ∨ r = some (.raw, g.buf)) :
    (s.modBuf g.buf fun x => { x with dirty := true }).view
      (update G t ⟨gs, none, none⟩) = (s.view G).pin g.dev g.blockno := by
  have hmark :
      ∀ i, (⟨gs, none, none⟩ : Held).mark = some (.hot, i) ↔ (G t).mark = some (.hot, i) := by
    intro i
    rcases hr with rfl | rfl <;> simp [hG]
  have hnot : ¬ Hot G g.buf := by
    rintro ⟨q, hq⟩
    -- a hot buffer is locked by the process that marked it
    have hlock := (hI.held hG hg).1
    have hmem := hI.datas.mark q _ _ hq
    have hother : (s.buf g.buf).lock = some q := by
      rw [hI.locks.lock]
      unfold Held.owned
      split <;> simp_all
    rw [hlock, Option.some.injEq] at hother
    subst hother
    exact absurd ((hmark g.buf).2 hq) (by simp)
  have hdirty := dirty_modBuf (f := fun x => { x with dirty := true })
    (H := update G t ⟨gs, none, none⟩) hI (t := t) (g := g)
    (by rw [hG]; exact hg) rfl (fun j _ => hot_update hmark j)
  have hset : ((s.modBuf g.buf fun x => { x with dirty := true }).view
      (update G t ⟨gs, none, none⟩)).dirty = ((s.view G).pin g.dev g.blockno).dirty := by
    funext dev b
    refine propext ((hdirty dev b).trans ?_)
    simp only [View.pin, Guard.tag, hot_update hmark]
    tauto
  exact View.ext rfl rfl rfl rfl rfl hset

/-- The dirty blocks after a held buffer is flagged for a transfer. -/
theorem view_unpin (hI : CacheInv s G) (hG : G t = ⟨gs, none, r⟩) (hg : g ∈ gs)
    (hr : r = none ∨ r = some (.raw, g.buf)) :
    (s.modBuf g.buf fun x => { x with dirty := true }).view
      (update G t ⟨gs, none, some (.hot, g.buf)⟩) = (s.view G).unpin g.dev g.blockno := by
  have hcold : ∀ i, (G t).mark ≠ some (.hot, i) := by
    intro i
    rcases hr with rfl | rfl <;> simp [hG]
  have hhot : Hot (update G t ⟨gs, none, some (.hot, g.buf)⟩) g.buf := ⟨t, by simp⟩
  have hdirty := dirty_modBuf (f := fun x => { x with dirty := true })
    (H := update G t ⟨gs, none, some (.hot, g.buf)⟩) hI (t := t) (g := g)
    (by rw [hG]; exact hg) rfl (fun j hj => hot_mark hcold hj)
  have hset : ((s.modBuf g.buf fun x => { x with dirty := true }).view
      (update G t ⟨gs, none, some (.hot, g.buf)⟩)).dirty =
      ((s.view G).unpin g.dev g.blockno).dirty := by
    funext dev b
    refine propext ((hdirty dev b).trans ?_)
    simp only [View.unpin, Guard.tag]
    tauto
  exact View.ext rfl rfl rfl rfl rfl hset

/-- The transfer: the data is what was last left in the block. -/
theorem view_flush (hI : CacheInv s G) (hG : G t = ⟨gs, none, some (.hot, g.buf)⟩) (hg : g ∈ gs) :
    ((s.setDisk (s.buf g.buf).dev (s.buf g.buf).blockno (s.buf g.buf).data).modBuf g.buf
      fun x => { x with dirty := false, valid := true }).view
      (update G t ⟨gs, none, none⟩) = (s.view G).flush g.dev g.blockno := by
  obtain ⟨-, -, htag, hdata⟩ := hI.held hG hg
  have hdev : (s.buf g.buf).dev = g.dev := congrArg Prod.fst htag
  have hbn : (s.buf g.buf).blockno = g.blockno := congrArg Prod.snd htag
  have hhot : Hot G g.buf := ⟨t, by simp [hG]⟩
  have hother : ∀ j, j ≠ g.buf → (Hot (update G t ⟨gs, none, none⟩) j ↔ Hot G j) := by
    intro j hj
    refine exists_congr fun q => ?_
    by_cases hq : q = t
    · subst hq
      simp [hG, Ne.symm hj]
    · rw [update_of_ne hq]
  have hdirty := dirty_modBuf (f := fun x => { x with dirty := false, valid := true })
    (H := update G t ⟨gs, none, none⟩) hI (t := t) (g := g)
    (by rw [hG]; exact hg) rfl hother
  have hset : ((s.modBuf g.buf fun x => { x with dirty := false, valid := true }).view
      (update G t ⟨gs, none, none⟩)).dirty = (s.view G).dirty := by
    funext dev b
    refine propext ((hdirty dev b).trans ?_)
    constructor
    · rintro (⟨-, hfalse, -⟩ | ⟨hd, -⟩)
      · simp at hfalse
      · exact hd
    · rintro ⟨j, ht, hd, hh⟩
      refine .inr ⟨⟨j, ht, hd, hh⟩, fun hx => ?_⟩
      -- the only buffer in use with this tag is hot
      have hj : j ≠ g.buf := fun hj => hh (hj ▸ hhot)
      exact hI.tag_ne (t := t) (by rw [hG]; exact hg) hj (Or.inr (Or.inr hd))
        (by rw [ht, hx, htag])
  refine View.ext ?_ rfl rfl rfl rfl hset
  rw [hdev, hbn, hdata]
  rfl

/-! ## The combined invariant -/

/-- The cache invariant with an invariant of the view. -/
def CInv (X : View → (τ → E) → Prop) (s : BState τ) (G : τ → Held × E) : Prop :=
  CacheInv s (Prod.fst ∘ G) ∧ X (s.view (Prod.fst ∘ G)) (Prod.snd ∘ G)

variable {X : View → (τ → E) → Prop} {e : E}

/-- A process may move the view by `f`: whatever the others know stays true, and the
mover then knows `Q`. -/
def Moves (X : View → (τ → E) → Prop) (t : τ) (e : E) (f : View → View) (Q : E → Prop) : Prop :=
  ∀ v F, X v F → F t = e → ∃ e', X (f v) (update F t e') ∧ Q e'

theorem CInv.intro {G : τ → Held × E} {h : Held} {e' : E} {s' : BState τ}
    (hc : CacheInv s' (update (Prod.fst ∘ G) t h)) (hx : X (s'.view (update (Prod.fst ∘ G) t h))
      (update (Prod.snd ∘ G) t e')) :
    CInv X s' (update G t (h, e')) := by
  unfold CInv
  rw [Function.comp_update, Function.comp_update]
  exact ⟨hc, hx⟩

/-- A step that changes what a process holds but not the view. -/
theorem CInv.still {G : τ → Held × E} {h h' : Held} {s' : BState τ} (hI : CInv X s G)
    (hG : G t = (h, e)) (hc : CacheInv s' (update (Prod.fst ∘ G) t h'))
    (hv : s'.view (update (Prod.fst ∘ G) t h') = s.view (Prod.fst ∘ G)) :
    CInv X s' (update G t (h', e)) := by
  refine CInv.intro hc ?_
  have he : (Prod.snd ∘ G) t = e := by simp [hG]
  rw [hv, ← he, update_eq_self]
  exact hI.2

/-! ## `bio.rs` -/

/-- Every buffer is referenced or pinned. -/
def BState.Full (s : BState τ) : Prop := ∀ i, (s.buf i).idle = false

variable {allowed : BState τ → String → Prop} {dev b : ℕ}

/-- Running out of buffers is the only way `get` fails. -/
theorem safe_get (hdry : ∀ s G, CInv X s G → s.Full → allowed s "bget: no buffers") :
    Safe (CInv X) allowed t (get t dev b) (⟨gs, none, r⟩, e)
      fun i γ => γ = (⟨gs, some (.locked, ⟨i, dev, b⟩), r⟩, e) := by
  unfold get
  refine Safe.bind (M := fun i γ => γ = (⟨gs, some (.waiting, ⟨i, dev, b⟩), r⟩, e))
    (safe_critical ?_ ?_) ?_
  · intro s G i s' hI hG hsec
    have hh : (Prod.fst ∘ G) t = ⟨gs, none, r⟩ := by simp [hG]
    refine ⟨_, ?_, rfl⟩
    unfold getSection at hsec
    split at hsec
    · rename_i j hfind
      simp only [Except.ok.injEq, Prod.mk.injEq] at hsec
      obtain ⟨rfl, rfl⟩ := hsec
      exact hI.still hG (hI.1.hit hh hfind) (view_modBuf _ _ _ rfl rfl (by simp [hG]))
    · rename_i hnone
      split at hsec
      · rename_i j hfind
        simp only [Except.ok.injEq, Prod.mk.injEq] at hsec
        obtain ⟨rfl, rfl⟩ := hsec
        have hidle := List.find?_some hfind
        exact hI.still hG (hI.1.recycle hh hnone hidle) (view_recycle _ _ _ _ hidle (by simp [hG]))
      · cases hsec
  · intro s G msg hI hG hsec
    unfold getSection at hsec
    split at hsec
    · cases hsec
    · split at hsec
      · cases hsec
      · rename_i hnone
        cases hsec
        refine hdry s G hI fun i => ?_
        have := List.find?_eq_none.1 hnone i (List.mem_reverse.2 (hI.1.lists.mem i))
        simpa using this
  · rintro i γ rfl
    refine Safe.bind (M := fun _ γ => γ = (⟨gs, some (.locked, ⟨i, dev, b⟩), r⟩, e))
      (safe_await ?_) fun _ γ hγ => safe_ret.2 hγ
    intro s G hI hG hfree
    have hh : (Prod.fst ∘ G) t = ⟨gs, some (.waiting, ⟨i, dev, b⟩), r⟩ := by simp [hG]
    exact ⟨_, hI.still hG (hI.1.acquire hh (Option.isNone_iff_eq_none.1 hfree))
      (view_modBuf _ _ _ rfl rfl (by simp [hG])), rfl⟩

/-- Reading returns a locked, valid buffer of the block. -/
theorem safe_read (hdry : ∀ s G, CInv X s G → s.Full → allowed s "bget: no buffers") :
    Safe (CInv X) allowed t (read t dev b) (⟨gs, none, r⟩, e)
      fun i γ => γ = (⟨⟨i, dev, b⟩ :: gs, none, r⟩, e) := by
  unfold read
  refine Safe.bind (safe_get hdry) ?_
  rintro i γ rfl
  -- a buffer seen valid is held at once, another one after the transfer
  refine Safe.bind (M := fun (v : Bool) γ => γ = if v then (⟨⟨i, dev, b⟩ :: gs, none, r⟩, e)
    else (⟨gs, some (.invalid, ⟨i, dev, b⟩), r⟩, e)) (safe_look ?_) ?_
  · intro s G hI hG
    have hh : (Prod.fst ∘ G) t = ⟨gs, some (.locked, ⟨i, dev, b⟩), r⟩ := by simp [hG]
    cases hv : (s.buf i).valid with
    | true => exact ⟨_, hI.still hG (hI.1.accept hh hv) (view_ghost _ (by simp [hG])), rfl⟩
    | false => exact ⟨_, hI.still hG (hI.1.reject hh hv) (view_ghost _ (by simp [hG])), rfl⟩
  · rintro v γ rfl
    cases v with
    | true => exact safe_ret.2 rfl
    | false =>
      refine Safe.bind (M := fun _ γ => γ = (⟨⟨i, dev, b⟩ :: gs, none, r⟩, e))
        (safe_critical ?_ ?_) fun _ γ hγ => safe_ret.2 hγ
      · intro s G _ s' hI hG hsec
        have hh : (Prod.fst ∘ G) t = ⟨gs, some (.invalid, ⟨i, dev, b⟩), r⟩ := by simp [hG]
        have hv := hI.1.datas.missing t _ (by rw [hh])
        have hd : (s.buf i).dirty = false := by
          by_contra hd
          have := hI.1.datas.dirtyValid i (by simpa using hd)
          simp [hv] at this
        simp only at hv
        simp only [iderwSection, hv, hd, Bool.false_and, Bool.false_eq_true, if_false,
          Except.ok.injEq, Prod.mk.injEq, true_and] at hsec
        subst hsec
        exact ⟨_, hI.still hG (hI.1.fill hh) (view_modBuf _ _ _ rfl rfl (by simp [hG])), rfl⟩
      · intro s G msg hI hG hsec
        have hh : (Prod.fst ∘ G) t = ⟨gs, some (.invalid, ⟨i, dev, b⟩), r⟩ := by simp [hG]
        have hv := hI.1.datas.missing t _ (by rw [hh])
        simp only at hv
        simp [iderwSection, hv] at hsec
        split at hsec <;> cases hsec

theorem safe_releaseBuf (hg : g ∈ gs) (hr : ∀ m, r ≠ some (m, g.buf)) :
    Safe (CInv X) allowed t (releaseBuf g.buf) (⟨gs, none, r⟩, e)
      fun _ γ => γ = (⟨gs.erase g, none, r⟩, e) := by
  unfold releaseBuf
  refine Safe.bind (M := fun _ γ => γ = (⟨gs, none, r⟩, e)) (safe_panicIf ?_) ?_
  · intro s G hI hG
    have hh : (Prod.fst ∘ G) t = ⟨gs, none, r⟩ := by simp [hG]
    exact .inr ⟨by simp [(hI.1.held hh hg).1], rfl⟩
  rintro _ γ rfl
  refine Safe.bind (M := fun _ γ => γ = (⟨gs.erase g, some (.unlocked, g), r⟩, e))
    (safe_change ?_) ?_
  · intro s G hI hG
    have hh : (Prod.fst ∘ G) t = ⟨gs, none, r⟩ := by simp [hG]
    exact ⟨_, hI.still hG (hI.1.unlock hh hg hr) (view_modBuf _ _ _ rfl rfl (by simp [hG])), rfl⟩
  rintro _ γ rfl
  refine safe_change ?_
  intro s G hI hG
  have hh : (Prod.fst ∘ G) t = ⟨gs.erase g, some (.unlocked, g), r⟩ := by simp [hG]
  exact ⟨_, hI.still hG (hI.1.put hh) (view_putSection _ _ (by simp [hG])), rfl⟩

theorem safe_lookLog {α : Type} (φ : Log → α) {h : Held} {Q : α → E → Prop}
    (hX : ∀ v F, X v F → F t = e → ∃ e', X v (update F t e') ∧ Q (φ v.log) e') :
    Safe (CInv X) allowed t (.look fun s => φ s.log) (h, e) fun a γ => γ.1 = h ∧ Q a γ.2 := by
  refine safe_look fun s G hI hG => ?_
  obtain ⟨e', hx, hq⟩ := hX (s.view (Prod.fst ∘ G)) (Prod.snd ∘ G) hI.2 (by simp [hG])
  have hh : (Prod.fst ∘ G) t = h := by simp [hG]
  refine ⟨(h, e'), CInv.intro ?_ ?_, rfl, hq⟩
  · rw [← hh, update_eq_self]
    exact hI.1
  · rw [← hh, update_eq_self]
    exact hx

/-- The data of a held buffer is what was last left in its block. -/
theorem safe_dataOf (hg : g ∈ gs) {Q : Block → E → Prop}
    (hX : ∀ v F, X v F → F t = e →
      ∃ e', X v (update F t e') ∧ Q (v.last g.dev g.blockno) e') :
    Safe (CInv X) allowed t (dataOf g.buf) (⟨gs, none, r⟩, e)
      fun d γ => γ.1 = ⟨gs, none, r⟩ ∧ Q d γ.2 := by
  refine safe_look fun s G hI hG => ?_
  have hh : (Prod.fst ∘ G) t = ⟨gs, none, r⟩ := by simp [hG]
  obtain ⟨e', hx, hq⟩ := hX (s.view (Prod.fst ∘ G)) (Prod.snd ∘ G) hI.2 (by simp [hG])
  refine ⟨(⟨gs, none, r⟩, e'), CInv.intro ?_ ?_, rfl, ?_⟩
  · rw [← hh, update_eq_self]
    exact hI.1
  · rw [← hh, update_eq_self]
    exact hx
  · rw [(hI.1.held hh hg).2.2.2]
    exact hq

/-- Changing a held buffer in place. -/
theorem safe_modify (hg : g ∈ gs) (hr : r = none ∨ r = some (.raw, g.buf)) (f : Block → Block)
    {Q : E → Prop}
    (hX : Moves X t e (fun v => v.leave g.dev g.blockno (f (v.last g.dev g.blockno))) Q) :
    Safe (CInv X) allowed t (modify g.buf f) (⟨gs, none, r⟩, e)
      fun _ γ => γ.1 = ⟨gs, none, some (.raw, g.buf)⟩ ∧ Q γ.2 := by
  refine safe_change fun s G hI hG => ?_
  have hh : (Prod.fst ∘ G) t = ⟨gs, none, r⟩ := by simp [hG]
  obtain ⟨-, -, htag, hdata⟩ := hI.1.held hh hg
  obtain ⟨e', hx, hq⟩ := hX (s.view (Prod.fst ∘ G)) (Prod.snd ∘ G) hI.2 (by simp [hG])
  refine ⟨(⟨gs, none, some (.raw, g.buf)⟩, e'), CInv.intro (hI.1.modify hh hg hr _) ?_, rfl, hq⟩
  have hdev : (s.buf g.buf).dev = g.dev := congrArg Prod.fst htag
  have hbn : (s.buf g.buf).blockno = g.blockno := congrArg Prod.snd htag
  have hmark : ∀ i, (⟨gs, none, some (.raw, g.buf)⟩ : Held).mark = some (.hot, i) ↔
      ((Prod.fst ∘ G) t).mark = some (.hot, i) := by
    intro i
    rcases hr with rfl | rfl <;> simp [hG]
  have hview := view_modBuf s g.buf (fun x => { x with data := f x.data }) rfl rfl hmark
  beta_reduce at hx
  rw [← hview] at hx
  rw [hdev, hbn, hdata]
  exact hx

/-- Flagging a held buffer for the log pins its block. -/
theorem CInv.pin {G : τ → Held × E} {lg : Log} {peak : ℕ} {e' : E}
    (hI : CInv X s G) (hG : G t = (⟨gs, none, r⟩, e)) (hg : g ∈ gs)
    (hr : r = none ∨ r = some (.raw, g.buf))
    (hx : X { (s.view (Prod.fst ∘ G)).pin g.dev g.blockno with log := lg, peak := peak }
      (update (Prod.snd ∘ G) t e')) :
    CInv X ({ s with log := lg, peak := peak }.modBuf g.buf fun x => { x with dirty := true })
      (update G t (⟨gs, none, none⟩, e')) := by
  have hh : (Prod.fst ∘ G) t = ⟨gs, none, r⟩ := by simp [hG]
  refine CInv.intro ((hI.1.setLog lg s.base peak).setDirty hh hg hr (Or.inl rfl)) ?_
  rw [view_pin (hI.1.setLog lg s.base peak) hh hg hr]
  exact hx

/-- `bio::write`: the block is flagged, then what was left in it reaches the disk. -/
theorem safe_write (hg : g ∈ gs) (hr : r = none ∨ r = some (.raw, g.buf)) {Q H : E → Prop}
    (hunpin : Moves X t e (fun v => v.unpin g.dev g.blockno) Q)
    (hflush : ∀ e', Q e' → Moves X t e' (fun v => v.flush g.dev g.blockno) H) :
    Safe (CInv X) allowed t (write g.buf) (⟨gs, none, r⟩, e)
      fun _ γ => γ.1 = ⟨gs, none, none⟩ ∧ H γ.2 := by
  unfold write
  refine Safe.bind (M := fun _ γ => γ = (⟨gs, none, r⟩, e)) (safe_panicIf ?_) ?_
  · intro s G hI hG
    have hh : (Prod.fst ∘ G) t = ⟨gs, none, r⟩ := by simp [hG]
    exact .inr ⟨by simp [(hI.1.held hh hg).1], rfl⟩
  rintro _ γ rfl
  refine Safe.bind (M := fun _ γ => γ.1 = ⟨gs, none, some (.hot, g.buf)⟩ ∧ Q γ.2)
    (safe_change ?_) ?_
  · intro s G hI hG
    have hh : (Prod.fst ∘ G) t = ⟨gs, none, r⟩ := by simp [hG]
    obtain ⟨e', hx, hq⟩ := hunpin (s.view (Prod.fst ∘ G)) (Prod.snd ∘ G) hI.2 (by simp [hG])
    refine ⟨(_, e'), CInv.intro (hI.1.setDirty hh hg hr (Or.inr rfl)) ?_, rfl, hq⟩
    rw [view_unpin hI.1 hh hg hr]
    exact hx
  rintro _ ⟨h, e'⟩ ⟨rfl, hq⟩
  have hhot : ∀ s (G : τ → Held × E), CInv X s G →
      G t = (⟨gs, none, some (.hot, g.buf)⟩, e') → (s.buf g.buf).dirty = true := by
    intro s G hI hG
    exact hI.1.datas.hot t g.buf (by simp [hG])
  refine safe_critical ?_ ?_
  · intro s G _ s' hI hG hsec
    have hd := hhot s G hI hG
    have hh : (Prod.fst ∘ G) t = ⟨gs, none, some (.hot, g.buf)⟩ := by simp [hG]
    obtain ⟨e'', hx, hq'⟩ := hflush e' hq (s.view (Prod.fst ∘ G)) (Prod.snd ∘ G) hI.2 (by simp [hG])
    simp only [iderwSection, hd, Bool.not_true, Bool.and_false, Bool.false_eq_true, if_false,
      if_true, Except.ok.injEq, Prod.mk.injEq, true_and] at hsec
    subst hsec
    refine ⟨(⟨gs, none, none⟩, e''), CInv.intro (hI.1.flush hh hg) ?_, rfl, hq'⟩
    rw [view_flush hI.1 hh hg]
    exact hx
  · intro s G msg hI hG hsec
    simp [iderwSection, hhot s G hI hG] at hsec

/-! ## `log.rs` -/

/-- The log and the record of the latest commit change under `log.lock`. -/
theorem CInv.setLog {G : τ → Held × E} {h : Held} {lg : Log} {e' : E} (base : ℕ → ℕ → Block)
    (hI : CInv X s G) (hG : G t = (h, e))
    (hx : X { s.view (Prod.fst ∘ G) with log := lg, base := base }
      (update (Prod.snd ∘ G) t e')) :
    CInv X { s with log := lg, base := base } (update G t (h, e')) := by
  have hh : (Prod.fst ∘ G) t = h := by simp [hG]
  refine CInv.intro ?_ ?_
  · rw [← hh, update_eq_self]
    exact hI.1.setLog lg base s.peak
  · rw [← hh, update_eq_self]
    exact hx

/-- `log_write` of a held buffer: a check of the log's room, a check of the number of
open operations, then the block is recorded and pinned. -/
theorem safe_logWrite (hg : g ∈ gs) (hr : r = none ∨ r = some (.raw, g.buf)) {Q : E → Prop}
    (hbig : ∀ s G, CInv X s G → G t = (⟨gs, none, r⟩, e) → s.log.tooBig = true →
      allowed s "too big a transaction")
    (hout : ∀ s G, CInv X s G → G t = (⟨gs, none, r⟩, e) → s.log.outstanding < 1 →
      allowed s "log_write outside of trans")
    (hidx : ∀ s G, CInv X s G → G t = (⟨gs, none, r⟩, e) → s.log.record g.blockno = none →
      allowed s "index out of bounds")
    (hX : ∀ v F lg, X v F → F t = e → v.log.record g.blockno = some lg →
      ∃ e', X { v.pin g.dev g.blockno with log := lg, peak := max v.peak lg.n }
        (update F t e') ∧ Q e') :
    Safe (CInv X) allowed t (logWrite g.buf) (⟨gs, none, r⟩, e)
      fun _ γ => γ.1 = ⟨gs, none, none⟩ ∧ Q γ.2 := by
  unfold logWrite
  refine Safe.bind (M := fun _ γ => γ = (⟨gs, none, r⟩, e)) (safe_panicIf ?_) ?_
  · intro s G hI hG
    cases hb : s.log.tooBig with
    | true => exact .inl ⟨rfl, hbig s G hI hG hb⟩
    | false => exact .inr ⟨rfl, rfl⟩
  rintro _ γ rfl
  refine Safe.bind (M := fun _ γ => γ = (⟨gs, none, r⟩, e)) (safe_panicIf ?_) ?_
  · intro s G hI hG
    by_cases ho : s.log.outstanding < 1
    · exact .inl ⟨by simpa using ho, hout s G hI hG ho⟩
    · exact .inr ⟨by simpa using ho, rfl⟩
  rintro _ γ rfl
  have htag : ∀ s (G : τ → Held × E), CInv X s G → G t = (⟨gs, none, r⟩, e) →
      (s.buf g.buf).blockno = g.blockno := by
    intro s G hI hG
    have hh : (Prod.fst ∘ G) t = ⟨gs, none, r⟩ := by simp [hG]
    exact congrArg Prod.snd (hI.1.held hh hg).2.2.1
  refine safe_critical ?_ ?_
  · intro s G _ s' hI hG hsec
    simp only [recordSection, htag s G hI hG] at hsec
    split at hsec
    · rename_i lg hrec
      simp only [Except.ok.injEq, Prod.mk.injEq, true_and] at hsec
      subst hsec
      obtain ⟨e', hx, hq⟩ := hX (s.view (Prod.fst ∘ G)) (Prod.snd ∘ G) lg hI.2 (by simp [hG]) hrec
      exact ⟨_, CInv.pin hI hG hg hr hx, rfl, hq⟩
    · cases hsec
  · intro s G msg hI hG hsec
    simp only [recordSection, htag s G hI hG] at hsec
    split at hsec
    · cases hsec
    · rename_i hrec
      cases hsec
      exact hidx s G hI hG hrec

end Rules

end Xv6.Fs
