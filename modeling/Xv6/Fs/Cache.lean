import Xv6.Lib.Machine
import Xv6.Lib.Pool
import Xv6.Fs.Bio

/-!
# The buffer cache keeps what its holders leave

The invariant behind `bio.rs`, for any number of processes.  Each process has a
ghost value (`Held`) listing the buffers it holds; `CacheInv` ties those lists to
the reference counts and sleep locks, says which buffers may share a tag, and
relates flags, data and disk to what the holders last left in each block.

* `LockInv` — reference counts count, locks exclude, held buffers keep their tag.
* `ListInv` — the list holds every buffer once; two buffers in use never carry
  one tag; a buffer never used still has the tag `(0, 0)` it was born with and
  stands behind the one buffer that may really cache block `(0, 0)`.
* `DataInv` — a valid buffer holds what was last left in its block, and so does
  the disk unless a dirty (or still locked) buffer does.

One lemma for each atomic step of `bio.rs` says that it keeps all three.
-/

namespace Xv6.Fs

open Lib Function List

variable {τ : Type}

/-! ## What a process holds -/

/-- A reference to a buffer, with the block it was asked for. -/
structure Guard where
  buf : Fin NBUF
  dev : ℕ
  blockno : ℕ
  deriving DecidableEq, Repr

/-- The block a guard is for. -/
def Guard.tag (g : Guard) : ℕ × ℕ := (g.dev, g.blockno)

/-- How far the call in progress has got with its buffer. -/
inductive Stage where
  /-- Referenced, the sleep lock not yet taken. -/
  | waiting
  /-- Locked, not yet known to be valid. -/
  | locked
  /-- Locked and found not valid. -/
  | invalid
  /-- Unlocked again, the reference not yet dropped. -/
  | unlocked
  deriving DecidableEq, Repr

/-- What a holder has done to a buffer and not finished. -/
inductive Mark where
  /-- Changed in place, not yet flagged. -/
  | raw
  /-- Flagged dirty, about to be transferred. -/
  | hot
  deriving DecidableEq, Repr

/-- What one process holds. -/
structure Held where
  /-- The guards `read` returned and nobody dropped. -/
  guards : List Guard
  /-- The buffer the call in progress is working on. -/
  pend : Option (Stage × Guard)
  /-- A held buffer in the middle of a change. -/
  mark : Option (Mark × Fin NBUF)

namespace Held

/-- Nothing held. -/
def empty : Held := ⟨[], none, none⟩

/-- Every guard a process has, the pending one included. -/
def all (h : Held) : List Guard := (h.pend.map Prod.snd).toList ++ h.guards

/-- The guards whose sleep lock the process holds. -/
def owned (h : Held) : List Guard :=
  match h.pend with
  | some (.locked, g) => g :: h.guards
  | some (.invalid, g) => g :: h.guards
  | _ => h.guards

/-- The guards whose buffer is known to be valid. -/
def seen (h : Held) : List Guard :=
  match h.pend with
  | some (.unlocked, g) => g :: h.guards
  | _ => h.guards

/-- How many references to a buffer the process holds. -/
def count (h : Held) (i : Fin NBUF) : ℕ := h.all.countP fun g => decide (g.buf = i)

end Held

/-! ## Projections of the state -/

/-- The block a buffer caches. -/
def Buf.tag (b : Buf τ) : ℕ × ℕ := (b.dev, b.blockno)

/-- A buffer in use: referenced, valid or dirty. -/
def Buf.Live (b : Buf τ) : Prop := 0 < b.refcnt ∨ b.valid = true ∨ b.dirty = true

theorem Buf.hasTag_iff (b : Buf τ) (dev bn : ℕ) : b.hasTag dev bn = true ↔ b.tag = (dev, bn) := by
  simp [Buf.hasTag, Buf.tag]

theorem Buf.idle_iff (b : Buf τ) : b.idle = true ↔ b.refcnt = 0 ∧ b.dirty = false := by
  simp [Buf.idle]

/-- A store to the block of one buffer leaves the blocks with other tags alone. -/
theorem storeAt_other (m : ℕ → ℕ → Block) (x : Buf τ) (d : Block) (y : ℕ × ℕ) (hy : y ≠ x.tag) :
    storeAt m x.dev x.blockno d y.1 y.2 = m y.1 y.2 :=
  storeAt_of_ne m d hy

@[simp] theorem modBuf_buf_self (s : BState τ) (i : Fin NBUF) (f : Buf τ → Buf τ) :
    (s.modBuf i f).buf i = f (s.buf i) := by
  simp [BState.modBuf]

@[simp] theorem modBuf_list (s : BState τ) (i : Fin NBUF) (f : Buf τ → Buf τ) :
    (s.modBuf i f).list = s.list := rfl

@[simp] theorem modBuf_disk (s : BState τ) (i : Fin NBUF) (f : Buf τ → Buf τ) :
    (s.modBuf i f).disk = s.disk := rfl

@[simp] theorem modBuf_last (s : BState τ) (i : Fin NBUF) (f : Buf τ → Buf τ) :
    (s.modBuf i f).last = s.last := rfl

theorem modBuf_buf_of_ne (s : BState τ) {i j : Fin NBUF} (f : Buf τ → Buf τ) (h : j ≠ i) :
    (s.modBuf i f).buf j = s.buf j := by
  simp [BState.modBuf, h]

/-- A property of a buffer that `f` does not change is the same for every buffer
after `modBuf`. -/
theorem modBuf_proj {α : Type} (π : Buf τ → α) (s : BState τ) (i : Fin NBUF) (f : Buf τ → Buf τ)
    (hf : π (f (s.buf i)) = π (s.buf i)) :
    (fun j => π ((s.modBuf i f).buf j)) = fun j => π (s.buf j) := by
  funext j
  by_cases hj : j = i
  · subst hj; rw [modBuf_buf_self, hf]
  · rw [modBuf_buf_of_ne s f hj]

/-! ## The invariant -/

section Invariants

variable [Fintype τ]

/-- References and sleep locks. -/
structure LockInv (lock : Fin NBUF → Option τ) (tag : Fin NBUF → ℕ × ℕ) (refcnt : Fin NBUF → ℕ)
    (G : τ → Held) : Prop where
  refs : ∀ i, refcnt i = ∑ t, (G t).count i
  tags : ∀ t, ∀ g ∈ (G t).all, tag g.buf = g.tag
  lock : ∀ t i, lock i = some t ↔ i ∈ (G t).owned.map Guard.buf
  nodup : ∀ t, ((G t).owned.map Guard.buf).Nodup

/-- The list of buffers and their tags. -/
structure ListInv (list : List (Fin NBUF)) (live : Fin NBUF → Prop) (tag : Fin NBUF → ℕ × ℕ) :
    Prop where
  nodup : list.Nodup
  mem : ∀ i, i ∈ list
  unique : ∀ i j, live i → live j → tag i = tag j → i = j
  fresh : ∀ i, ¬ live i → tag i = (0, 0)
  order : list.Pairwise fun i j => live i ∨ ¬ (live j ∧ tag j = (0, 0))

/-- Flags, data and disk. -/
structure DataInv (valid dirty : Fin NBUF → Bool) (data : Fin NBUF → Block)
    (tag : Fin NBUF → ℕ × ℕ) (disk last : ℕ → ℕ → Block) (G : τ → Held) : Prop where
  dirtyValid : ∀ i, dirty i = true → valid i = true
  content : ∀ i, valid i = true → data i = last (tag i).1 (tag i).2
  clean : ∀ i, valid i = true → dirty i = false → (∀ t, (G t).mark ≠ some (.raw, i)) →
    disk (tag i).1 (tag i).2 = last (tag i).1 (tag i).2
  home : ∀ dev b, (∃ i, valid i = true ∧ tag i = (dev, b)) ∨ disk dev b = last dev b
  guards : ∀ t, ∀ g ∈ (G t).seen, valid g.buf = true
  mark : ∀ t m i, (G t).mark = some (m, i) → i ∈ (G t).guards.map Guard.buf
  hot : ∀ t i, (G t).mark = some (.hot, i) → dirty i = true
  missing : ∀ t g, (G t).pend = some (.invalid, g) → valid g.buf = false

/-- The invariant of the buffer cache. -/
structure CacheInv (s : BState τ) (G : τ → Held) : Prop where
  locks : LockInv (fun i => (s.buf i).lock) (fun i => (s.buf i).tag) (fun i => (s.buf i).refcnt) G
  lists : ListInv s.list (fun i => (s.buf i).Live) (fun i => (s.buf i).tag)
  datas : DataInv (fun i => (s.buf i).valid) (fun i => (s.buf i).dirty) (fun i => (s.buf i).data)
    (fun i => (s.buf i).tag) s.disk s.last G

/-! ## Changing one process's ghost value -/

variable [DecidableEq τ] {G : τ → Held} {t : τ} {h' : Held} {lock lock' : Fin NBUF → Option τ}
  {tag tag' : Fin NBUF → ℕ × ℕ} {refcnt refcnt' : Fin NBUF → ℕ}

omit [DecidableEq τ] in
theorem LockInv.refcnt_pos (h : LockInv lock tag refcnt G) {g : Guard} (hg : g ∈ (G t).all) :
    0 < refcnt g.buf := by
  rw [h.refs]
  have hcount : 0 < (G t).count g.buf := countP_pos_iff.2 ⟨g, hg, by simp⟩
  exact hcount.trans_le (Finset.single_le_sum (f := fun r => (G r).count g.buf)
    (fun _ _ => Nat.zero_le _) (Finset.mem_univ t))

/-- What has to be checked when process `t` moves: its own ghost value, and that
the others' references keep their tags and locks. -/
theorem LockInv.update (h : LockInv lock tag refcnt G)
    (hrefs : ∀ i, refcnt' i + (G t).count i = refcnt i + h'.count i)
    (hothers : ∀ r ≠ t, ∀ g ∈ (G r).all, tag' g.buf = tag g.buf)
    (htags : ∀ g ∈ h'.all, tag' g.buf = g.tag)
    (hkept : ∀ r ≠ t, ∀ i, lock' i = some r ↔ lock i = some r)
    (hlock : ∀ i, lock' i = some t ↔ i ∈ h'.owned.map Guard.buf)
    (hnodup : (h'.owned.map Guard.buf).Nodup) :
    LockInv lock' tag' refcnt' (Function.update G t h') where
  refs i := by
    have hsum := sum_update_add (fun x : Held => x.count i) G t h'
    have := hrefs i
    have := h.refs i
    omega
  tags r g hg := by
    by_cases hr : r = t
    · subst hr
      rw [Function.update_self] at hg
      exact htags g hg
    · rw [Function.update_of_ne hr] at hg
      rw [hothers r hr g hg, h.tags r g hg]
  lock r i := by
    by_cases hr : r = t
    · subst hr
      rw [Function.update_self, hlock]
    · rw [Function.update_of_ne hr, hkept r hr, h.lock]
  nodup r := by
    by_cases hr : r = t
    · subst hr
      rwa [Function.update_self]
    · rw [Function.update_of_ne hr]
      exact h.nodup r

/-- References and locks do not read the marks. -/
theorem LockInv.mark {gs : List Guard} {p : Option (Stage × Guard)}
    {r r' : Option (Mark × Fin NBUF)}
    (h : LockInv lock tag refcnt G) (hG : G t = ⟨gs, p, r⟩) :
    LockInv lock tag refcnt (Function.update G t ⟨gs, p, r'⟩) := by
  refine h.update (fun i => ?_) (fun _ _ _ _ => rfl) ?_ (fun _ _ _ => Iff.rfl) (fun i => ?_) ?_
  · rw [hG]
    rfl
  · have := h.tags t
    rwa [hG] at this
  · rw [h.lock, hG]
    rfl
  · have := h.nodup t
    rwa [hG] at this

section Data

variable {valid dirty : Fin NBUF → Bool} {data : Fin NBUF → Block} {disk last : ℕ → ℕ → Block}

omit [Fintype τ] in
theorem DataInv.guards_update (h : DataInv valid dirty data tag disk last G)
    (hguards : ∀ g ∈ h'.seen, valid g.buf = true) :
    ∀ q, ∀ g ∈ (update G t h' q).seen, valid g.buf = true :=
  (Function.forall_update_iff G fun _ x => ∀ g ∈ x.seen, valid g.buf = true).2
    ⟨hguards, fun q _ => h.guards q⟩

omit [Fintype τ] in
theorem DataInv.mark_update (h : DataInv valid dirty data tag disk last G)
    (hmark : ∀ m i, h'.mark = some (m, i) → i ∈ h'.guards.map Guard.buf) :
    ∀ q m i, (update G t h' q).mark = some (m, i) →
      i ∈ (update G t h' q).guards.map Guard.buf :=
  (Function.forall_update_iff G fun _ x => ∀ m i, x.mark = some (m, i) →
    i ∈ x.guards.map Guard.buf).2
    ⟨hmark, fun q _ => h.mark q⟩

omit [Fintype τ] in
theorem DataInv.hot_update (h : DataInv valid dirty data tag disk last G)
    (hhot : ∀ i, h'.mark = some (.hot, i) → dirty i = true) :
    ∀ q i, (update G t h' q).mark = some (.hot, i) → dirty i = true :=
  (Function.forall_update_iff G fun _ x => ∀ i, x.mark = some (.hot, i) → dirty i = true).2
    ⟨hhot, fun q _ => h.hot q⟩

omit [Fintype τ] in
theorem DataInv.missing_update (h : DataInv valid dirty data tag disk last G)
    (hmiss : ∀ g, h'.pend = some (.invalid, g) → valid g.buf = false) :
    ∀ q g, (update G t h' q).pend = some (.invalid, g) → valid g.buf = false :=
  (Function.forall_update_iff G fun _ x => ∀ g, x.pend = some (.invalid, g) → valid g.buf = false).2
    ⟨hmiss, fun q _ => h.missing q⟩

omit [Fintype τ] in
/-- The data invariant only reads which buffers are held and which are marked. -/
theorem DataInv.ghost (h : DataInv valid dirty data tag disk last G)
    (hguards : ∀ g ∈ h'.seen, valid g.buf = true) (hraw : h'.mark = (G t).mark)
    (hmem : ∀ m i, h'.mark = some (m, i) → i ∈ h'.guards.map Guard.buf)
    (hmiss : ∀ g, h'.pend = some (.invalid, g) → valid g.buf = false) :
    DataInv valid dirty data tag disk last (update G t h') where
  dirtyValid := h.dirtyValid
  content := h.content
  home := h.home
  clean i hv hd hr := by
    refine h.clean i hv hd fun r => ?_
    have hri := hr r
    by_cases hrt : r = t
    · subst hrt
      rwa [update_self, hraw] at hri
    · rwa [update_of_ne hrt] at hri
  guards := h.guards_update hguards
  mark := h.mark_update hmem
  hot := h.hot_update fun i hi => h.hot t i (hraw ▸ hi)
  missing := h.missing_update hmiss

end Data

end Invariants

/-! ## The list under a change of one buffer -/

section Lists

variable {list : List (Fin NBUF)} {live : Fin NBUF → Prop} {tag : Fin NBUF → ℕ × ℕ} {i : Fin NBUF}
  {p : Fin NBUF → Bool}

/-- Before the element `find?` returns there is none with the property. -/
theorem pairwise_of_find? (h : list.find? p = some i) {R : Fin NBUF → Fin NBUF → Prop}
    (hR : list.Pairwise R) :
    list.Pairwise fun a b => R a b ∧ (b = i → list.Nodup → p a = false) := by
  obtain ⟨-, as, bs, rfl, has⟩ := find?_eq_some_iff_append.1 h
  rw [pairwise_append] at hR ⊢
  obtain ⟨h1, h2, h3⟩ := hR
  have hnot : ∀ b ∈ bs, (as ++ i :: bs).Nodup → b ≠ i := by
    rintro b hb hnd rfl
    exact (nodup_cons.1 (nodup_append.1 hnd).2.1).1 hb
  refine ⟨h1.imp_of_mem fun {a b} ha hb hab => ⟨hab, fun _ _ => by simpa using has a ha⟩, ?_, ?_⟩
  · rw [pairwise_cons] at h2 ⊢
    refine ⟨fun b hb => ⟨h2.1 b hb, fun hbi hnd => absurd hbi (hnot b hb hnd)⟩, ?_⟩
    exact h2.2.imp_of_mem fun {a b} _ hb hab => ⟨hab, fun hbi hnd => absurd hbi (hnot b hb hnd)⟩
  · exact fun a ha b hb => ⟨h3 a ha b hb, fun _ _ => by simpa using has a ha⟩

/-- A hit: the first buffer with the tag is referenced.  Were it not live before,
no live buffer with its tag could stand behind it. -/
theorem ListInv.hit {x : ℕ × ℕ} (h : ListInv list live tag) (hp : ∀ j, p j = true ↔ tag j = x)
    (hfind : list.find? p = some i) : ListInv list (fun j => live j ∨ j = i) tag := by
  have htag : tag i = x := (hp i).1 (find?_some hfind)
  obtain ⟨-, as, bs, hlist, has⟩ := find?_eq_some_iff_append.1 hfind
  have hfirst : ∀ j, live j → tag j = x → j = i := by
    intro j hj hjx
    by_cases hi : live i
    · exact h.unique j i hj hi (hjx.trans htag.symm)
    · have hx : x = (0, 0) := by rw [← htag]; exact h.fresh i hi
      have hmem := h.mem j
      rw [hlist, mem_append, mem_cons] at hmem
      rcases hmem with hmem | rfl | hmem
      · have hno := has j hmem
        rw [(hp j).2 hjx] at hno
        simp at hno
      · rfl
      · have hord := h.order
        rw [hlist, pairwise_append, pairwise_cons] at hord
        rcases hord.2.1.1 j hmem with hli | hnot
        · exact absurd hli hi
        · exact absurd ⟨hj, hjx.trans hx⟩ hnot
  refine ⟨h.nodup, h.mem, ?_, fun j hj => h.fresh j fun hl => hj (Or.inl hl), ?_⟩
  · rintro a b (ha | rfl) (hb | rfl) hab
    · exact h.unique a b ha hb hab
    · exact hfirst a ha (hab.trans htag)
    · exact (hfirst b hb (hab.symm.trans htag)).symm
    · rfl
  · refine (pairwise_of_find? hfind h.order).imp fun {a b} hab => ?_
    by_contra hcon
    simp only [not_or, not_not] at hcon
    obtain ⟨⟨hla, -⟩, hlb, hb0⟩ := hcon
    rcases hlb with hlb | rfl
    · exact hab.1.elim hla fun hn => hn ⟨hlb, hb0⟩
    · -- the pair `(a, i)`: an unused buffer in front of the hit carries the same tag
      have hpa := hab.2 rfl h.nodup
      rw [Bool.eq_false_iff, ne_eq, hp, h.fresh a hla] at hpa
      exact hpa (hb0.symm.trans htag)

/-- A recycle: no buffer had the tag before. -/
theorem ListInv.recycle {x : ℕ × ℕ} (h : ListInv list live tag) (hnone : ∀ j, tag j ≠ x) :
    ListInv list (fun j => live j ∨ j = i) (update tag i x) := by
  have hlive : ∀ j, j ≠ i → (live j ∨ j = i) → live j := fun j hj hl => hl.resolve_right hj
  refine ⟨h.nodup, h.mem, ?_, ?_, ?_⟩
  · intro a b ha hb hab
    by_cases hai : a = i <;> by_cases hbi : b = i
    · rw [hai, hbi]
    · subst hai
      rw [update_self, update_of_ne hbi] at hab
      exact absurd hab.symm (hnone b)
    · subst hbi
      rw [update_self, update_of_ne hai] at hab
      exact absurd hab (hnone a)
    · rw [update_of_ne hai, update_of_ne hbi] at hab
      exact h.unique a b (hlive a hai ha) (hlive b hbi hb) hab
  · intro j hj
    have hji : j ≠ i := fun he => hj (Or.inr he)
    rw [update_of_ne hji]
    exact h.fresh j fun hl => hj (Or.inl hl)
  · refine h.order.imp fun {a b} hab => ?_
    by_contra hcon
    simp only [not_or, not_not] at hcon
    obtain ⟨⟨hla, -⟩, hlb, hb0⟩ := hcon
    by_cases hbi : b = i
    · subst hbi
      rw [update_self] at hb0
      exact hnone a ((h.fresh a hla).trans hb0.symm)
    · rw [update_of_ne hbi] at hb0
      exact hab.elim hla fun hn => hn ⟨hlive b hbi hlb, hb0⟩

/-- Moving a live buffer to the front. -/
theorem ListInv.toFront (h : ListInv list live tag) (hi : live i) :
    ListInv (i :: list.erase i) live tag where
  nodup := nodup_cons.2 ⟨h.nodup.not_mem_erase, h.nodup.erase i⟩
  mem j := by
    by_cases hj : j = i
    · exact hj ▸ mem_cons_self
    · exact mem_cons_of_mem _ ((mem_erase_of_ne hj).2 (h.mem j))
  unique := h.unique
  fresh := h.fresh
  order := pairwise_cons.2 ⟨fun _ _ => Or.inl hi, h.order.sublist erase_sublist⟩

end Lists

/-! ## The steps of `bio.rs` and `log.rs` -/

section Steps

variable [Fintype τ] [DecidableEq τ] {s s' : BState τ} {G : τ → Held} {t : τ} {gs : List Guard}
  {r : Option (Mark × Fin NBUF)} {i : Fin NBUF} {g : Guard} {dev b : ℕ}

omit [DecidableEq τ] in
/-- No process refers to a buffer whose count is zero. -/
theorem CacheInv.no_guard (hI : CacheInv s G) (hi : (s.buf i).refcnt = 0) (q : τ) :
    ∀ g ∈ (G q).all, g.buf ≠ i := by
  rintro g hg rfl
  exact (hI.locks.refcnt_pos hg).ne' hi

omit [DecidableEq τ] in
/-- A marked buffer is referenced. -/
theorem CacheInv.not_mark (hI : CacheInv s G) (hi : (s.buf i).refcnt = 0) (q : τ) (m : Mark) :
    (G q).mark ≠ some (m, i) := by
  intro hr
  obtain ⟨g, hg, hgi⟩ := mem_map.1 (hI.datas.mark q m i hr)
  exact hI.no_guard hi q g (mem_append_right _ hg) hgi

omit [DecidableEq τ] in
/-- A referenced buffer is live, whatever else changes. -/
theorem CacheInv.live_of_guard (hI : CacheInv s G) (hg : g ∈ (G t).all) : (s.buf g.buf).Live :=
  Or.inl (hI.locks.refcnt_pos hg)

theorem Held.count_busy (st : Stage) (j : Fin NBUF) :
    (⟨gs, some (st, g), r⟩ : Held).count j =
      (⟨gs, none, r⟩ : Held).count j + if g.buf = j then 1 else 0 := by
  simp [Held.count, Held.all, countP_cons]

theorem Held.count_cons (j : Fin NBUF) :
    (⟨g :: gs, none, r⟩ : Held).count j =
      (⟨gs, none, r⟩ : Held).count j + if g.buf = j then 1 else 0 := by
  simp [Held.count, Held.all, countP_cons]

/-- A hit takes one more reference. -/
theorem CacheInv.hit (hI : CacheInv s G) (hG : G t = ⟨gs, none, r⟩)
    (hfind : s.list.find? (fun j => (s.buf j).hasTag dev b) = some i) :
    CacheInv (s.modBuf i .addRef) (update G t ⟨gs, some (.waiting, ⟨i, dev, b⟩), r⟩) := by
  have hp := find?_some hfind
  have htag : (s.buf i).tag = (dev, b) := (Buf.hasTag_iff _ _ _).1 hp
  refine ⟨?_, ?_, ?_⟩
  · rw [modBuf_proj Buf.lock _ _ _ rfl, modBuf_proj Buf.tag _ _ _ rfl]
    refine hI.locks.update ?_ (fun _ _ _ _ => rfl) ?_ (fun _ _ _ => Iff.rfl) ?_ ?_
    · intro j
      rw [hG, Held.count_busy]
      by_cases hj : j = i
      · subst hj
        simp only [modBuf_buf_self, Buf.addRef, if_true]
        omega
      · simp only [modBuf_buf_of_ne s _ hj, Ne.symm hj, if_false]
        omega
    · rintro g (_ | ⟨_, hg⟩)
      · exact htag
      · exact hI.locks.tags t g (by rw [hG]; exact hg)
    · intro j
      rw [hI.locks.lock, hG]
      rfl
    · have := hI.locks.nodup t
      rwa [hG] at this
  · rw [modBuf_proj Buf.tag _ _ _ rfl]
    have hlive :
        (fun j => ((s.modBuf i .addRef).buf j).Live) = fun j => (s.buf j).Live ∨ j = i := by
      funext j
      by_cases hj : j = i
      · subst hj; simp [Buf.Live, Buf.addRef]
      · simp [modBuf_buf_of_ne s _ hj, hj]
    rw [hlive]
    exact hI.lists.hit (fun j => Buf.hasTag_iff _ _ _) hfind
  · rw [modBuf_proj Buf.valid _ _ _ rfl, modBuf_proj Buf.dirty _ _ _ rfl,
      modBuf_proj Buf.data _ _ _ rfl, modBuf_proj Buf.tag _ _ _ rfl]
    refine hI.datas.ghost ?_ (by rw [hG]) ?_ (by simp)
    · have := hI.datas.guards t
      rwa [hG] at this
    · have := hI.datas.mark t
      rwa [hG] at this

/-- A recycle changes the tag of a buffer nobody refers to.  What the buffer held
is on the disk, since it was not dirty. -/
theorem CacheInv.recycle (hI : CacheInv s G) (hG : G t = ⟨gs, none, r⟩)
    (hnone : s.list.find? (fun j => (s.buf j).hasTag dev b) = none)
    (hidle : (s.buf i).idle = true) :
    CacheInv (s.modBuf i (.recycle dev b)) (update G t ⟨gs, some (.waiting, ⟨i, dev, b⟩), r⟩) := by
  obtain ⟨hi, hclean⟩ := (Buf.idle_iff _).1 hidle
  have htag : (fun j => ((s.modBuf i (.recycle dev b)).buf j).tag) =
      update (fun j => (s.buf j).tag) i (dev, b) := by
    funext j
    by_cases hj : j = i
    · subst hj; simp [Buf.tag, Buf.recycle]
    · simp [modBuf_buf_of_ne s _ hj, hj]
  refine ⟨?_, ?_, ?_⟩
  · rw [modBuf_proj Buf.lock _ _ _ rfl, htag]
    refine hI.locks.update ?_ ?_ ?_ (fun _ _ _ => Iff.rfl) ?_ ?_
    · intro j
      rw [hG, Held.count_busy]
      by_cases hj : j = i
      · subst hj
        simp only [modBuf_buf_self, Buf.recycle, hi, if_true]
        omega
      · simp only [modBuf_buf_of_ne s _ hj, Ne.symm hj, if_false]
        omega
    · intro q _ g hg
      exact update_of_ne (hI.no_guard hi q g hg) _ _
    · rintro g (_ | ⟨_, hg⟩)
      · exact update_self _ _ _
      · have hg' : g ∈ (G t).all := by rw [hG]; exact hg
        rw [update_of_ne (hI.no_guard hi t g hg')]
        exact hI.locks.tags t g hg'
    · intro j
      rw [hI.locks.lock, hG]
      rfl
    · have := hI.locks.nodup t
      rwa [hG] at this
  · have hlive : (fun j => ((s.modBuf i (.recycle dev b)).buf j).Live) = fun j => (s.buf j).Live ∨
      j = i := by
      funext j
      by_cases hj : j = i
      · subst hj; simp [Buf.Live, Buf.recycle]
      · simp [modBuf_buf_of_ne s _ hj, hj]
    rw [hlive, htag]
    refine hI.lists.recycle fun j hj => ?_
    have := find?_eq_none.1 hnone j (hI.lists.mem j)
    exact this ((Buf.hasTag_iff _ _ _).2 hj)
  · have hdata : DataInv (fun j => ((s.modBuf i (.recycle dev b)).buf j).valid)
        (fun j => ((s.modBuf i (.recycle dev b)).buf j).dirty)
        (fun j => (s.buf j).data) (update (fun j => (s.buf j).tag) i (dev, b))
        s.disk s.last G := by
      refine ⟨?_, ?_, ?_, ?_, ?_, hI.datas.mark, ?_, ?_⟩
      · intro j
        by_cases hj : j = i
        · subst hj; simp [Buf.recycle]
        · simpa [modBuf_buf_of_ne s _ hj] using hI.datas.dirtyValid j
      · intro j
        by_cases hj : j = i
        · subst hj; simp [Buf.recycle]
        · simpa [modBuf_buf_of_ne s _ hj, hj] using hI.datas.content j
      · intro j
        by_cases hj : j = i
        · subst hj; simp [Buf.recycle]
        · simpa [modBuf_buf_of_ne s _ hj, hj] using hI.datas.clean j
      · intro d c
        rcases hI.datas.home d c with ⟨j, hv, hj⟩ | hd
        · by_cases hji : j = i
          · subst hji
            right
            have := hI.datas.clean j hv hclean fun q => hI.not_mark hi q _
            rwa [hj] at this
          · exact .inl ⟨j, by simpa [modBuf_buf_of_ne s _ hji] using hv, by simpa [hji] using hj⟩
        · exact .inr hd
      · intro q g hg
        have hall : g ∈ (G q).all := by
          revert hg
          unfold Held.seen Held.all
          split <;> simp_all
        rw [modBuf_buf_of_ne s _ (hI.no_guard hi q g hall)]
        exact hI.datas.guards q g hg
      · intro q j hj
        have hji : j ≠ i := by
          rintro rfl
          exact hI.not_mark hi q _ hj
        rw [modBuf_buf_of_ne s _ hji]
        exact hI.datas.hot q j hj
      · intro q g hg
        by_cases hj : g.buf = i
        · rw [hj]; simp [Buf.recycle]
        · rw [modBuf_buf_of_ne s _ hj]
          exact hI.datas.missing q g hg
    rw [modBuf_proj Buf.data _ _ _ rfl, htag]
    refine hdata.ghost ?_ (by rw [hG]) ?_ (by simp)
    · have := hdata.guards t
      rwa [hG] at this
    · have := hdata.mark t
      rwa [hG] at this

omit [DecidableEq τ] in
/-- Changing a buffer that is live before and after, but not its tag, does not
disturb the list. -/
theorem CacheInv.lists_modBuf (hI : CacheInv s G) {f : Buf τ → Buf τ}
    (htag : (f (s.buf i)).tag = (s.buf i).tag) (hlive : (s.buf i).Live)
    (hlive' : (f (s.buf i)).Live) :
    ListInv s.list (fun j => ((s.modBuf i f).buf j).Live)
      (fun j => ((s.modBuf i f).buf j).tag) := by
  rw [modBuf_proj Buf.tag _ _ _ htag,
    modBuf_proj Buf.Live _ _ _ (propext ⟨fun _ => hlive, fun _ => hlive'⟩)]
  exact hI.lists

omit [DecidableEq τ] in
/-- Changing only flags and data does not disturb references and locks. -/
theorem CacheInv.locks_modBuf (hI : CacheInv s G) {f : Buf τ → Buf τ}
    (htag : (f (s.buf i)).tag = (s.buf i).tag) (hlock : (f (s.buf i)).lock = (s.buf i).lock)
    (href : (f (s.buf i)).refcnt = (s.buf i).refcnt) :
    LockInv (fun j => ((s.modBuf i f).buf j).lock) (fun j => ((s.modBuf i f).buf j).tag)
      (fun j => ((s.modBuf i f).buf j).refcnt) G := by
  rw [modBuf_proj Buf.tag _ _ _ htag, modBuf_proj Buf.lock _ _ _ hlock,
    modBuf_proj Buf.refcnt _ _ _ href]
  exact hI.locks

/-- Taking the sleep lock of a referenced buffer. -/
theorem CacheInv.acquire (hI : CacheInv s G) (hG : G t = ⟨gs, some (.waiting, g), r⟩)
    (hfree : (s.buf g.buf).lock = none) :
    CacheInv (s.modBuf g.buf fun x => { x with lock := some t })
      (update G t ⟨gs, some (.locked, g), r⟩) := by
  have hall : g ∈ (G t).all := by rw [hG]; exact mem_cons_self
  have hlive := hI.live_of_guard hall
  refine ⟨?_, hI.lists_modBuf rfl hlive hlive, ?_⟩
  · rw [modBuf_proj Buf.tag _ _ _ rfl, modBuf_proj Buf.refcnt _ _ _ rfl]
    have hown := hI.locks.lock t
    rw [hG] at hown
    refine hI.locks.update ?_ (fun _ _ _ _ => rfl) ?_ ?_ ?_ ?_
    · intro j
      rw [hG]
      rfl
    · have := hI.locks.tags t
      rwa [hG] at this
    · intro q hq j
      by_cases hj : j = g.buf
      · subst hj
        simp [hfree, Ne.symm hq]
      · simp only [modBuf_buf_of_ne s _ hj]
    · intro j
      by_cases hj : j = g.buf
      · subst hj
        simp [Held.owned]
      · simp only [modBuf_buf_of_ne s _ hj, hown]
        simp [Held.owned, hj]
    · have hnd := hI.locks.nodup t
      rw [hG] at hnd
      refine nodup_cons.2 ⟨fun hmem => ?_, hnd⟩
      have := (hown g.buf).2 hmem
      simp [hfree] at this
  · rw [modBuf_proj Buf.valid _ _ _ rfl, modBuf_proj Buf.dirty _ _ _ rfl,
      modBuf_proj Buf.data _ _ _ rfl, modBuf_proj Buf.tag _ _ _ rfl]
    refine hI.datas.ghost ?_ (by rw [hG]) ?_ (by simp)
    · have := hI.datas.guards t
      rwa [hG] at this
    · have := hI.datas.mark t
      rwa [hG] at this

/-- A locked buffer that is valid is held. -/
theorem CacheInv.accept (hI : CacheInv s G) (hG : G t = ⟨gs, some (.locked, g), r⟩)
    (hv : (s.buf g.buf).valid = true) :
    CacheInv s (update G t ⟨g :: gs, none, r⟩) := by
  refine ⟨?_, hI.lists, ?_⟩
  · refine hI.locks.update ?_ (fun _ _ _ _ => rfl) ?_ (fun _ _ _ => Iff.rfl) ?_ ?_
    · intro j
      rw [hG, Held.count_busy, Held.count_cons]
    · have := hI.locks.tags t
      rwa [hG] at this
    · intro j
      rw [hI.locks.lock, hG]
      rfl
    · have := hI.locks.nodup t
      rwa [hG] at this
  · have hguards := hI.datas.guards t
    have hraw := hI.datas.mark t
    rw [hG] at hguards hraw
    refine hI.datas.ghost ?_ (by rw [hG]) (fun m j hj => mem_cons_of_mem _ (hraw m j hj))
      (by simp)
    rintro g' (_ | ⟨_, hg'⟩)
    · exact hv
    · exact hguards g' hg'

/-- Dropping the sleep lock of a held buffer. -/
theorem CacheInv.unlock (hI : CacheInv s G) (hG : G t = ⟨gs, none, r⟩) (hg : g ∈ gs)
    (hr : ∀ m, r ≠ some (m, g.buf)) :
    CacheInv (s.modBuf g.buf fun x => { x with lock := none })
      (update G t ⟨gs.erase g, some (.unlocked, g), r⟩) := by
  have hall : g ∈ (G t).all := by rw [hG]; exact hg
  have hlive := hI.live_of_guard hall
  have hperm := perm_cons_erase hg
  have hown := hI.locks.lock t
  have hnd := hI.locks.nodup t
  rw [hG] at hown hnd
  have hnd' : (g.buf :: (gs.erase g).map Guard.buf).Nodup :=
    (hperm.map Guard.buf).nodup_iff.1 hnd
  have hmem : ∀ j, j ∈ gs.map Guard.buf ↔ j = g.buf ∨ j ∈ (gs.erase g).map Guard.buf := by
    intro j
    rw [(hperm.map Guard.buf).mem_iff, map_cons, mem_cons]
  refine ⟨?_, hI.lists_modBuf rfl hlive hlive, ?_⟩
  · rw [modBuf_proj Buf.tag _ _ _ rfl, modBuf_proj Buf.refcnt _ _ _ rfl]
    refine hI.locks.update ?_ (fun _ _ _ _ => rfl) ?_ ?_ ?_ (nodup_cons.1 hnd').2
    · intro j
      rw [hG]
      exact congrArg _ (hperm.countP_eq _)
    · intro g' hg'
      refine hI.locks.tags t g' ?_
      rw [hG]
      exact hperm.mem_iff.2 hg'
    · intro q hq j
      by_cases hj : j = g.buf
      · subst hj
        have hmine : (s.buf g.buf).lock = some t := (hown g.buf).2 ((hmem _).2 (Or.inl rfl))
        simp [hmine, Ne.symm hq]
      · simp only [modBuf_buf_of_ne s _ hj]
    · intro j
      by_cases hj : j = g.buf
      · subst hj
        simpa [Held.owned] using (nodup_cons.1 hnd').1
      · simp only [modBuf_buf_of_ne s _ hj, hown]
        exact (hmem j).trans (or_iff_right hj)
  · rw [modBuf_proj Buf.valid _ _ _ rfl, modBuf_proj Buf.dirty _ _ _ rfl,
      modBuf_proj Buf.data _ _ _ rfl, modBuf_proj Buf.tag _ _ _ rfl]
    have hguards := hI.datas.guards t
    have hraw := hI.datas.mark t
    rw [hG] at hguards hraw
    refine hI.datas.ghost (fun g' hg' => hguards g' (hperm.mem_iff.2 hg')) (by rw [hG]) ?_ (by simp)
    intro m j hj
    refine ((hmem j).1 (hraw m j hj)).resolve_left ?_
    rintro rfl
    exact hr m hj

/-- Dropping the reference to a buffer already unlocked. -/
theorem CacheInv.put (hI : CacheInv s G) (hG : G t = ⟨gs, some (.unlocked, g), r⟩) :
    CacheInv (putSection g.buf s) (update G t ⟨gs, none, r⟩) := by
  have hall : g ∈ (G t).all := by rw [hG]; exact mem_cons_self
  have hpos := hI.locks.refcnt_pos hall
  have hguards := hI.datas.guards t
  have hraw := hI.datas.mark t
  rw [hG] at hguards hraw
  have hvalid : (s.buf g.buf).valid = true := hguards g mem_cons_self
  have hbase : CacheInv (s.modBuf g.buf fun x => { x with refcnt := x.refcnt - 1 })
      (update G t ⟨gs, none, r⟩) := by
    refine ⟨?_, hI.lists_modBuf rfl (Or.inr (Or.inl hvalid)) (Or.inr (Or.inl hvalid)), ?_⟩
    · rw [modBuf_proj Buf.lock _ _ _ rfl, modBuf_proj Buf.tag _ _ _ rfl]
      refine hI.locks.update ?_ (fun _ _ _ _ => rfl) ?_ (fun _ _ _ => Iff.rfl) ?_ ?_
      · intro j
        rw [hG, Held.count_busy]
        by_cases hj : j = g.buf
        · subst hj
          simp only [modBuf_buf_self, if_true]
          omega
        · simp only [modBuf_buf_of_ne s _ hj, Ne.symm hj, if_false]
          omega
      · intro g' hg'
        refine hI.locks.tags t g' ?_
        rw [hG]
        exact mem_cons_of_mem _ hg'
      · intro j
        rw [hI.locks.lock, hG]
        rfl
      · have := hI.locks.nodup t
        rwa [hG] at this
    · rw [modBuf_proj Buf.valid _ _ _ rfl, modBuf_proj Buf.dirty _ _ _ rfl,
        modBuf_proj Buf.data _ _ _ rfl, modBuf_proj Buf.tag _ _ _ rfl]
      exact hI.datas.ghost (fun g' hg' => hguards g' (mem_cons_of_mem _ hg')) (by rw [hG]) hraw
        (by simp)
  unfold putSection
  simp only
  split_ifs
  · refine ⟨hbase.locks, hbase.lists.toFront ?_, hbase.datas⟩
    simp [Buf.Live, hvalid]
  · exact hbase

omit [DecidableEq τ] in
/-- No other buffer in use has the tag of a referenced one. -/
theorem CacheInv.tag_ne (hI : CacheInv s G) (hg : g ∈ (G t).all) {j : Fin NBUF} (hj : j ≠ g.buf)
    (hlive : (s.buf j).Live) : (s.buf j).tag ≠ (s.buf g.buf).tag :=
  fun he => hj (hI.lists.unique _ _ hlive (hI.live_of_guard hg) he)

/-- A locked buffer that is not valid is marked so. -/
theorem CacheInv.reject (hI : CacheInv s G) (hG : G t = ⟨gs, some (.locked, g), r⟩)
    (hv : (s.buf g.buf).valid = false) :
    CacheInv s (update G t ⟨gs, some (.invalid, g), r⟩) := by
  refine ⟨?_, hI.lists, ?_⟩
  · refine hI.locks.update ?_ (fun _ _ _ _ => rfl) ?_ (fun _ _ _ => Iff.rfl) ?_ ?_
    · intro j
      rw [hG]
      rfl
    · have := hI.locks.tags t
      rwa [hG] at this
    · intro j
      rw [hI.locks.lock, hG]
      rfl
    · have := hI.locks.nodup t
      rwa [hG] at this
  · have hguards := hI.datas.guards t
    have hraw := hI.datas.mark t
    rw [hG] at hguards hraw
    refine hI.datas.ghost hguards (by rw [hG]) hraw ?_
    rintro g' hg'
    cases hg'
    exact hv

/-- Reading the block of a locked buffer from the disk. -/
theorem CacheInv.fill (hI : CacheInv s G) (hG : G t = ⟨gs, some (.invalid, g), r⟩) :
    CacheInv (s.modBuf g.buf fun x => { x with data := s.disk x.dev x.blockno, valid := true })
      (update G t ⟨g :: gs, none, r⟩) := by
  have hg : g ∈ (G t).all := by rw [hG]; exact mem_cons_self
  have hlive := hI.live_of_guard hg
  have hv : (s.buf g.buf).valid = false := hI.datas.missing t g (by rw [hG])
  have hdisk : s.disk (s.buf g.buf).tag.1 (s.buf g.buf).tag.2 =
      s.last (s.buf g.buf).tag.1 (s.buf g.buf).tag.2 := by
    rcases hI.datas.home (s.buf g.buf).tag.1 (s.buf g.buf).tag.2 with ⟨j, hvj, hj⟩ | hd
    · by_cases hji : j = g.buf
      · subst hji
        simp [hv] at hvj
      · exact absurd hj (hI.tag_ne hg hji (Or.inr (Or.inl hvj)))
    · exact hd
  have hlock : (s.buf g.buf).lock = some t := by
    rw [hI.locks.lock, hG]
    exact mem_cons_self
  have hgrow : ∀ j, (s.buf j).valid = true → ((s.modBuf g.buf fun x =>
      { x with data := s.disk x.dev x.blockno, valid := true }).buf j).valid = true := by
    intro j hvj
    by_cases hj : j = g.buf
    · subst hj; simp
    · rwa [modBuf_buf_of_ne s _ hj]
  have hguards := hI.datas.guards t
  have hraw := hI.datas.mark t
  rw [hG] at hguards hraw
  refine ⟨?_, hI.lists_modBuf rfl hlive (Or.inr (Or.inl rfl)), ?_⟩
  · rw [modBuf_proj Buf.lock _ _ _ rfl, modBuf_proj Buf.tag _ _ _ rfl,
      modBuf_proj Buf.refcnt _ _ _ rfl]
    refine hI.locks.update ?_ (fun _ _ _ _ => rfl) ?_ (fun _ _ _ => Iff.rfl) ?_ ?_
    · intro j
      rw [hG, Held.count_busy, Held.count_cons]
    · have := hI.locks.tags t
      rwa [hG] at this
    · intro j
      rw [hI.locks.lock, hG]
      rfl
    · have := hI.locks.nodup t
      rwa [hG] at this
  rw [modBuf_proj Buf.tag _ _ _ rfl, modBuf_proj Buf.dirty _ _ _ rfl]
  refine ⟨fun j hd => hgrow j (hI.datas.dirtyValid j hd), ?_, ?_, ?_, ?_, ?_, ?_, ?_⟩
  · intro j
    by_cases hj : j = g.buf
    · subst hj
      intro _
      simp only [modBuf_buf_self]
      exact hdisk
    · simpa [modBuf_buf_of_ne s _ hj] using hI.datas.content j
  · intro j hvj hdj hr
    by_cases hj : j = g.buf
    · subst hj
      exact hdisk
    · rw [modBuf_buf_of_ne s _ hj] at hvj
      refine hI.datas.clean j hvj hdj fun q => ?_
      by_cases hq : q = t
      · subst hq
        simpa [hG] using hr q
      · simpa [hq] using hr q
  · intro d c
    exact (hI.datas.home d c).imp_left fun ⟨j, hvj, hj⟩ => ⟨j, hgrow j hvj, hj⟩
  · intro q g' hg'
    by_cases hq : q = t
    · subst hq
      rw [update_self] at hg'
      rcases hg' with _ | ⟨_, hg'⟩
      · simp
      · exact hgrow _ (hguards g' hg')
    · rw [update_of_ne hq] at hg'
      exact hgrow _ (hI.datas.guards q g' hg')
  · exact hI.datas.mark_update fun m j hj => mem_cons_of_mem _ (hraw m j hj)
  · exact hI.datas.hot_update fun j hj => hI.datas.hot t j (by rw [hG]; exact hj)
  · intro q g' hg'
    by_cases hq : q = t
    · subst hq
      simp at hg'
    · rw [update_of_ne hq] at hg'
      -- two processes cannot both hold the sleep lock
      have hother : (s.buf g'.buf).lock = some q := by
        rw [hI.locks.lock]
        simp [Held.owned, hg']
      have hne : g'.buf ≠ g.buf := by
        intro he
        rw [he, hlock, Option.some.injEq] at hother
        exact hq hother.symm
      rw [modBuf_buf_of_ne s _ hne]
      exact hI.datas.missing q g' hg'

/-- Changing the data of a held buffer: until it is flagged, its block may differ
from the disk. -/
theorem CacheInv.modify (hI : CacheInv s G) (hG : G t = ⟨gs, none, r⟩) (hg : g ∈ gs)
    (hr : r = none ∨ r = some (.raw, g.buf)) (d : Block) :
    CacheInv ((s.modBuf g.buf fun x => { x with data := d }).setLast
        (s.buf g.buf).dev (s.buf g.buf).blockno d)
      (update G t ⟨gs, none, some (.raw, g.buf)⟩) := by
  have hall : g ∈ (G t).all := by rw [hG]; exact hg
  have hlive := hI.live_of_guard hall
  have hguards := hI.datas.guards t
  rw [hG] at hguards
  have hlast := storeAt_other s.last (s.buf g.buf) d
  refine ⟨(hI.locks_modBuf (f := fun x => { x with data := d }) (i := g.buf) rfl rfl rfl).mark hG,
    hI.lists_modBuf (f := fun x => { x with data := d }) rfl hlive hlive, ?_⟩
  · simp only [BState.setLast, modBuf_last, modBuf_disk]
    rw [modBuf_proj Buf.tag _ _ _ rfl, modBuf_proj Buf.valid _ _ _ rfl,
      modBuf_proj Buf.dirty _ _ _ rfl]
    refine ⟨hI.datas.dirtyValid, ?_, ?_, ?_, ?_, ?_, ?_, ?_⟩
    · intro j hv
      by_cases hj : j = g.buf
      · subst hj
        simp [Buf.tag]
      · rw [hlast _ (hI.tag_ne hall hj (Or.inr (Or.inl hv)))]
        simpa [modBuf_buf_of_ne s _ hj] using hI.datas.content j hv
    · intro j hv hd hraw
      have hj : j ≠ g.buf := by
        rintro rfl
        exact hraw t (by simp)
      rw [hlast _ (hI.tag_ne hall hj (Or.inr (Or.inl hv)))]
      refine hI.datas.clean j hv hd fun q => ?_
      by_cases hq : q = t
      · subst hq
        rw [hG]
        rcases hr with rfl | rfl
        · simp
        · simpa using Ne.symm hj
      · simpa [hq] using hraw q
    · intro x y
      by_cases hxy : (x, y) = (s.buf g.buf).tag
      · exact .inl ⟨g.buf, hguards g hg, hxy.symm⟩
      · rw [hlast (x, y) hxy]
        exact hI.datas.home x y
    · exact hI.datas.guards_update hguards
    · refine hI.datas.mark_update fun m j hj => ?_
      simp only [Option.some.injEq, Prod.mk.injEq] at hj
      exact hj.2 ▸ mem_map_of_mem hg
    · exact hI.datas.hot_update (by simp)
    · exact hI.datas.missing_update (by simp)

/-- Flagging a held buffer dirty accounts for a change made to it. -/
theorem CacheInv.setDirty (hI : CacheInv s G) (hG : G t = ⟨gs, none, r⟩) (hg : g ∈ gs)
    (hr : r = none ∨ r = some (.raw, g.buf)) {r' : Option (Mark × Fin NBUF)}
    (hr' : r' = none ∨ r' = some (.hot, g.buf)) :
    CacheInv (s.modBuf g.buf fun x => { x with dirty := true })
      (update G t ⟨gs, none, r'⟩) := by
  have hlive := hI.live_of_guard (t := t) (g := g) (by rw [hG]; exact hg)
  have hguards := hI.datas.guards t
  rw [hG] at hguards
  refine ⟨(hI.locks_modBuf rfl rfl rfl).mark hG, hI.lists_modBuf rfl hlive (Or.inr (Or.inr rfl)),
    ?_⟩
  rw [modBuf_proj Buf.valid _ _ _ rfl, modBuf_proj Buf.data _ _ _ rfl,
    modBuf_proj Buf.tag _ _ _ rfl]
  refine ⟨?_, hI.datas.content, ?_, hI.datas.home, ?_, ?_, ?_, ?_⟩
  · intro j hd
    by_cases hj : j = g.buf
    · exact hj ▸ hguards g hg
    · exact hI.datas.dirtyValid j (by simpa [modBuf_buf_of_ne s _ hj] using hd)
  · intro j hv hd hraw
    have hj : j ≠ g.buf := by
      rintro rfl
      simp at hd
    rw [modBuf_buf_of_ne s _ hj] at hd
    refine hI.datas.clean j hv hd fun q => ?_
    by_cases hq : q = t
    · subst hq
      rw [hG]
      rcases hr with rfl | rfl
      · simp
      · simpa using Ne.symm hj
    · simpa [hq] using hraw q
  · exact hI.datas.guards_update hguards
  · refine hI.datas.mark_update fun m j hj => ?_
    rcases hr' with rfl | rfl
    · cases hj
    · cases hj
      exact mem_map_of_mem hg
  · intro q j hj
    by_cases hji : j = g.buf
    · subst hji; simp
    · rw [modBuf_buf_of_ne s _ hji]
      by_cases hq : q = t
      · subst hq
        rw [update_self] at hj
        rcases hr' with rfl | rfl
        · cases hj
        · cases hj
          exact absurd rfl hji
      · rw [update_of_ne hq] at hj
        exact hI.datas.hot q j hj
  · exact hI.datas.missing_update (by simp)

/-- Writing a buffer flagged dirty to its block. -/
theorem CacheInv.flush (hI : CacheInv s G) (hG : G t = ⟨gs, none, some (.hot, g.buf)⟩)
    (hg : g ∈ gs) :
    CacheInv ((s.setDisk (s.buf g.buf).dev (s.buf g.buf).blockno (s.buf g.buf).data).modBuf g.buf
      fun x => { x with dirty := false, valid := true })
      (update G t ⟨gs, none, none⟩) := by
  have hall : g ∈ (G t).all := by rw [hG]; exact hg
  have hlive := hI.live_of_guard hall
  have hd : (s.buf g.buf).dirty = true := hI.datas.hot t g.buf (by rw [hG])
  have hv := hI.datas.dirtyValid _ hd
  have hlock : (s.buf g.buf).lock = some t := by
    rw [hI.locks.lock, hG]
    exact mem_map_of_mem hg
  have hdisk := storeAt_other s.disk (s.buf g.buf) (s.buf g.buf).data
  have hdata : storeAt s.disk (s.buf g.buf).dev (s.buf g.buf).blockno (s.buf g.buf).data
      (s.buf g.buf).tag.1 (s.buf g.buf).tag.2 =
      s.last (s.buf g.buf).tag.1 (s.buf g.buf).tag.2 :=
    (storeAt_self _ _ _ _).trans (hI.datas.content _ hv)
  refine ⟨(hI.locks_modBuf (f := fun x => { x with dirty := false, valid := true }) (i := g.buf)
      rfl rfl rfl).mark hG,
    hI.lists_modBuf (f := fun x => { x with dirty := false, valid := true }) rfl hlive
      (Or.inr (Or.inl rfl)), ?_⟩
  simp only [modBuf_disk, modBuf_last]
  have hvalid : (fun j => (((s.setDisk (s.buf g.buf).dev (s.buf g.buf).blockno
      (s.buf g.buf).data).modBuf g.buf fun x =>
        { x with dirty := false, valid := true }).buf j).valid) = fun j => (s.buf j).valid :=
    modBuf_proj Buf.valid _ _ _ hv.symm
  rw [hvalid, modBuf_proj Buf.data _ _ _ rfl, modBuf_proj Buf.tag _ _ _ rfl]
  refine ⟨?_, hI.datas.content, ?_, ?_, ?_, ?_, ?_, ?_⟩
  · intro j hdj
    by_cases hj : j = g.buf
    · exact hj ▸ hv
    · rw [modBuf_buf_of_ne _ _ hj] at hdj
      exact hI.datas.dirtyValid j hdj
  · intro j hvj hdj hraw
    by_cases hj : j = g.buf
    · subst hj
      exact hdata
    · rw [modBuf_buf_of_ne _ _ hj] at hdj
      refine (hdisk _ (hI.tag_ne hall hj (Or.inr (Or.inl hvj)))).trans
        (hI.datas.clean j hvj hdj fun q => ?_)
      by_cases hq : q = t
      · subst hq
        simp [hG]
      · simpa [hq] using hraw q
  · intro x y
    by_cases hxy : (x, y) = (s.buf g.buf).tag
    · exact .inl ⟨g.buf, hv, hxy.symm⟩
    · exact (hI.datas.home x y).imp_right (hdisk (x, y) hxy).trans
  · exact hI.datas.guards_update fun g' hg' => hI.datas.guards t g' (by rw [hG]; exact hg')
  · exact hI.datas.mark_update (by simp)
  · intro q j hj
    by_cases hq : q = t
    · subst hq
      simp at hj
    · rw [update_of_ne hq] at hj
      -- the other process holds the lock of its own buffer
      have hne : j ≠ g.buf := by
        rintro rfl
        have hmem := hI.datas.mark q _ _ hj
        have hother : (s.buf g.buf).lock = some q := by
          rw [hI.locks.lock]
          unfold Held.owned
          split <;> simp_all
        rw [hlock, Option.some.injEq] at hother
        exact hq hother.symm
      rw [modBuf_buf_of_ne _ _ hne]
      exact hI.datas.hot q j hj
  · exact hI.datas.missing_update (by simp)

omit [DecidableEq τ] in
/-- The cache does not read the log. -/
theorem CacheInv.setLog (hI : CacheInv s G) (lg : Log) (base : ℕ → ℕ → Block) (peak : ℕ) :
    CacheInv { s with log := lg, base := base, peak := peak } G :=
  ⟨hI.locks, hI.lists, hI.datas⟩

omit [DecidableEq τ] in
theorem CacheInv.boot (disk : ℕ → ℕ → Block) (lg : Log) :
    CacheInv (BState.boot disk lg : BState τ) fun _ => .empty := by
  refine ⟨⟨?_, ?_, ?_, ?_⟩, ⟨?_, ?_, ?_, ?_, ?_⟩, ⟨?_, ?_, ?_, ?_, ?_, ?_, ?_, ?_⟩⟩
  · simp [BState.boot, Held.empty, Held.count, Held.all]
  · simp [Held.empty, Held.all]
  · simp [BState.boot, Held.empty, Held.owned]
  · simp [Held.empty, Held.owned]
  · exact nodup_reverse.2 (nodup_finRange _)
  · simp [BState.boot]
  · simp [BState.boot, Buf.Live]
  · simp [BState.boot, Buf.tag]
  · exact List.Pairwise.imp (fun _ => by simp [BState.boot, Buf.Live])
      (nodup_reverse.2 (nodup_finRange _))
  · simp [BState.boot]
  · simp [BState.boot]
  · simp [BState.boot]
  · simp [BState.boot]
  · simp [Held.empty, Held.seen]
  · simp [Held.empty]
  · simp [Held.empty]
  · simp [Held.empty]

end Steps

end Xv6.Fs
