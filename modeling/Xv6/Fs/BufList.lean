import Xv6.Lib.Dll
import Xv6.Lib.Fallible
import Xv6.Fs.Bio

/-!
# The list of buffers

The buffers of `crates/fs/src/bio.rs` with their `next` and `prev` pointers: `init` links them,
`get` follows the pointers from the head in one direction and then in the other, and `release_buf`
takes a buffer out and puts it behind the head.  The block layer of `Xv6.Fs.Bio` has a list in place
of the pointers.

* `Bcache`, `init`, `get`, `put` — the cache and what is done to it under `bcache.lock`.
* `Shows` — the pointers show a list; `Shows.get`, `Shows.put` — the sections of the block layer do
  to the list what the pointer writes do.
* `Act`, `run` — any interleaving of calls, with a record of the buffers dropped.
* `Recent` — the list is in the order of the latest drops.
* `buffer_list` — all of this holds after every run.
-/

namespace Xv6.Fs

open Lib List

/-- A node of the list: `bc.head`, or a buffer. -/
abbrev Node : Type := Option (Fin NBUF)

/-- `Bcache`. -/
structure Bcache (τ : Type) where
  buf : Fin NBUF → Buf τ
  links : Dll Node

/-- Why a call does not return. -/
inductive BStop where
  | panic (msg : String)
  /-- A loop over the list goes past more nodes than there are. -/
  | spins
  deriving DecidableEq

namespace Bcache

variable {τ : Type}

/-- Change one buffer. -/
def modBuf (c : Bcache τ) (i : Fin NBUF) (f : Buf τ → Buf τ) : Bcache τ :=
  { c with buf := Function.update c.buf i (f (c.buf i)) }

/-- A buffer in memory that is all zeros. -/
def zeroed : Buf τ :=
  { dev := 0, blockno := 0, valid := false, dirty := false, refcnt := 0, lock := none,
    data := .zero }

/-- `init`.  The pointers of a buffer are written before they are read. -/
def init : Bcache τ where
  buf := fun _ => zeroed
  links := ((List.finRange NBUF).map some).foldl (fun d b => d.pushFront none b)
    ⟨fun _ => none, fun _ => none⟩

/-- A condition on the buffer at a node. -/
def test (c : Bcache τ) (p : Buf τ → Bool) : Node → Bool
  | none => false
  | some i => p (c.buf i)

/-- The section of `get` under `bcache.lock`; the addition is checked. -/
def get (c : Bcache τ) (dev b : ℕ) : Except BStop (Fin NBUF × Bcache τ) :=
  match Dll.seek c.links.next none (c.test (·.hasTag dev b)) (NBUF + 1) (c.links.next none) with
  | none => .error .spins
  | some (some (some i)) =>
    if (c.buf i).refcnt + 1 < 2 ^ 32 then .ok (i, c.modBuf i .addRef)
    else .error (.panic "attempt to add with overflow")
  | some _ =>
    match Dll.seek c.links.prev none (c.test (·.idle)) (NBUF + 1) (c.links.prev none) with
    | none => .error .spins
    | some (some (some i)) => .ok (i, c.modBuf i (.recycle dev b))
    | some _ => .error (.panic "bget: no buffers")

/-- The section of `release_buf` under `bcache.lock`; the subtraction is checked. -/
def put (c : Bcache τ) (i : Fin NBUF) : Except BStop (Bcache τ) :=
  if (c.buf i).refcnt = 0 then .error (.panic "attempt to subtract with overflow")
  else
    let c := c.modBuf i fun x => { x with refcnt := x.refcnt - 1 }
    if (c.buf i).refcnt = 0 then
      .ok { c with links := (c.links.unlink (some i)).pushFront none (some i) }
    else .ok c

/-! ## The list -/

/-- The pointers show the list of the block layer, with every buffer in it. -/
structure Shows (c : Bcache τ) (s : BState τ) : Prop where
  buf : c.buf = s.buf
  cycle : c.links.Cycle none (s.list.map some)
  all : s.list.Perm (List.finRange NBUF)

variable {c c' : Bcache τ} {s : BState τ} {i : Fin NBUF} {dev b : ℕ}

theorem none_notMem_map {l : List (Fin NBUF)} : (none : Node) ∉ l.map some := by simp

theorem nodup_nodes {l : List (Fin NBUF)} (h : l.Nodup) : ((none : Node) :: l.map some).Nodup :=
  nodup_cons.2 ⟨none_notMem_map, h.map (Option.some_injective _)⟩

theorem Shows.nodup (h : Shows c s) : s.list.Nodup := h.all.nodup_iff.2 (nodup_finRange _)

theorem Shows.mem (h : Shows c s) (i : Fin NBUF) : i ∈ s.list :=
  h.all.mem_iff.2 (mem_finRange i)

theorem Shows.length_lt (h : Shows c s) : (s.list.map some).length < NBUF + 1 := by
  rw [length_map, h.all.length_eq, length_finRange]
  exact Nat.lt_succ_self _

/-- **`init` shows the list that the block layer starts with.** -/
theorem shows_init (disk : ℕ → ℕ → Block) (lg : Log) : Shows (init : Bcache τ) (.boot disk lg) := by
  refine ⟨rfl, ?_, reverse_perm _⟩
  have hnodup := nodup_nodes (nodup_finRange NBUF)
  have hlinked :=
    (Dll.cycle_nil (d := ⟨fun _ : Node => none, fun _ => none⟩) rfl rfl).foldl_pushFront
    ((List.finRange NBUF).map some) (by simpa using hnodup)
  rw [List.append_nil, ← map_reverse] at hlinked
  exact hlinked

theorem Shows.find_next (h : Shows c s) (p : Buf τ → Bool) :
    Dll.seek c.links.next none (c.test p) (NBUF + 1) (c.links.next none) =
      some ((s.list.find? fun i => p (s.buf i)).map some) := by
  rw [h.cycle.seek_next none_notMem_map h.length_lt, find?_map, ← h.buf]
  rfl

theorem Shows.find_prev (h : Shows c s) (p : Buf τ → Bool) :
    Dll.seek c.links.prev none (c.test p) (NBUF + 1) (c.links.prev none) =
      some ((s.list.reverse.find? fun i => p (s.buf i)).map some) := by
  rw [h.cycle.seek_prev none_notMem_map h.length_lt, ← map_reverse, find?_map, ← h.buf]
  rfl

theorem Shows.modBuf (h : Shows c s) (i : Fin NBUF) (f : Buf τ → Buf τ) :
    Shows (c.modBuf i f) (s.modBuf i f) := by
  refine ⟨?_, h.cycle, h.all⟩
  simp only [Bcache.modBuf, BState.modBuf, h.buf]

/-- **`get`** finds the buffer that the block layer does. -/
theorem Shows.get (h : Shows c s) (hget : c.get dev b = .ok (i, c')) :
    ∃ s', getSection dev b s = .ok (i, s') ∧ Shows c' s' ∧ s'.list = s.list := by
  rw [Bcache.get, h.find_next] at hget
  rw [getSection]
  cases htag : s.list.find? fun i => (s.buf i).hasTag dev b with
  | some j =>
    simp only [htag, Option.map_some] at hget
    split_ifs at hget
    cases hget
    exact ⟨_, rfl, h.modBuf _ _, rfl⟩
  | none =>
    simp only [htag, Option.map_none, h.find_prev] at hget
    cases hidle : s.list.reverse.find? fun i => (s.buf i).idle with
    | some j =>
      simp only [hidle, Option.map_some] at hget
      cases hget
      exact ⟨_, rfl, h.modBuf _ _, rfl⟩
    | none =>
      simp only [hidle, Option.map_none] at hget
      cases hget

/-- The loops of `get` come back to the head. -/
theorem Shows.get_ne_spins (h : Shows c s) : c.get dev b ≠ .error .spins := by
  rw [Bcache.get, h.find_next]
  cases s.list.find? fun i => (s.buf i).hasTag dev b with
  | some j =>
    simp only [Option.map_some]
    split_ifs <;> simp
  | none =>
    simp only [Option.map_none, h.find_prev]
    cases s.list.reverse.find? fun i => (s.buf i).idle with
    | some j => simp
    | none => simp

theorem erase_middle {l l₁ l₂ : List (Fin NBUF)} (hd : l.Nodup) (hsplit : l = l₁ ++ i :: l₂) :
    l.erase i = l₁ ++ l₂ := by
  rw [hsplit, nodup_append] at hd
  have hi : i ∉ l₁ := fun hin => hd.2.2 i hin i mem_cons_self rfl
  rw [hsplit, erase_append_right _ hi, erase_cons_head]

/-- **`release_buf`** moves the buffer as the block layer does. -/
theorem Shows.put (h : Shows c s) (hput : c.put i = .ok c') : Shows c' (putSection i s) := by
  rw [Bcache.put] at hput
  split_ifs at hput with hzero
  have hmod := h.modBuf i fun x => { x with refcnt := x.refcnt - 1 }
  rw [putSection]
  simp only [hmod.buf] at hput
  split_ifs at hput with hdrop
  · cases hput
    simp only [hdrop, if_true]
    refine ⟨rfl, ?_, ?_⟩
    · obtain ⟨l₁, l₂, hsplit⟩ := append_of_mem (h.mem i)
      have hcycle := h.cycle
      have hnodes := nodup_nodes h.nodup
      rw [hsplit, map_append, map_cons] at hcycle hnodes
      change Dll.Cycle _ none ((i :: s.list.erase i).map some)
      rw [erase_middle h.nodup hsplit, map_cons, map_append]
      exact hcycle.moveFront hnodes
    · exact (perm_cons_erase (h.mem i)).symm.trans h.all
  · cases hput
    simp only [hdrop, if_false]
    exact hmod

/-! ## Runs -/

/-- What the processes do to the cache.  A call of `get` is `get` and, when the lock is free,
`acquire`; one of `release_buf` is `release` and then `put`.  In between, whoever holds a buffer may
set its flags. -/
inductive Act (τ : Type) where
  | get (dev b : ℕ)
  | acquire (me : τ) (i : Fin NBUF)
  | release (i : Fin NBUF)
  | put (i : Fin NBUF)
  | flags (i : Fin NBUF) (valid dirty : Bool)

/-- The cache, with all buffers released so far, and those whose count was dropped to zero, the
latest first. -/
structure Trace (τ : Type) where
  cache : Bcache τ
  released : List (Fin NBUF)
  drops : List (Fin NBUF)

/-- After `init`. -/
def Trace.start : Trace τ := ⟨init, [], []⟩

/-- One step. -/
def step (t : Trace τ) : Act τ → Except BStop (Trace τ)
  | .get dev b => (t.cache.get dev b).map fun r => { t with cache := r.2 }
  | .acquire me i =>
    -- a process waits as long as the lock is taken
    if (t.cache.buf i).lock.isSome then .ok t
    else .ok { t with cache := t.cache.modBuf i fun x => { x with lock := some me } }
  | .release i =>
    if (t.cache.buf i).lock.isNone then .error (.panic "brelse")
    else .ok { t with cache := t.cache.modBuf i fun x => { x with lock := none } }
  | .put i => (t.cache.put i).map fun c =>
    ⟨c, i :: t.released, if (c.buf i).refcnt = 0 then i :: t.drops else t.drops⟩
  | .flags i valid dirty =>
    .ok { t with cache := t.cache.modBuf i fun x => { x with valid := valid, dirty := dirty } }

/-- The whole sequence. -/
def run (as : List (Act τ)) : Except BStop (Trace τ) := as.foldlM step .start

/-- One buffer stands before another. -/
def Before (l : List (Fin NBUF)) (i j : Fin NBUF) : Prop := [i, j].Sublist l

/-- A buffer that has been dropped stands before those whose latest drop is earlier, and before
those that never were. -/
def Recent (l drops : List (Fin NBUF)) : Prop :=
  ∀ i ∈ drops, ∀ j, Before l i j ↔ drops.idxOf i < drops.idxOf j

/-- Moving other buffers does not change the order of two. -/
theorem before_erase {l : List (Fin NBUF)} {i j k : Fin NBUF} (hi : i ≠ k) (hj : j ≠ k) :
    Before (l.erase k) i j ↔ Before l i j := by
  constructor
  · exact fun h => h.trans erase_sublist
  · intro h
    have herase : ([i, j].erase k).Sublist (l.erase k) := h.erase k
    rwa [erase_of_not_mem (by simp [hi.symm, hj.symm])] at herase

theorem Recent.drop {l drops : List (Fin NBUF)} {k : Fin NBUF} (h : Recent l drops) (hd : l.Nodup)
    (hall : ∀ i, i ∈ l) : Recent (k :: l.erase k) (k :: drops) := by
  intro i hi j
  have hk : k ∉ l.erase k := hd.not_mem_erase
  rcases eq_or_ne i k with rfl | hik
  · -- the buffer just dropped stands before all others
    rw [Before, cons_sublist_cons, singleton_sublist, idxOf_cons_self]
    rcases eq_or_ne j i with rfl | hji
    · simp [hk]
    · rw [idxOf_cons_ne _ hji.symm]
      simp [mem_erase_of_ne hji, hall j]
  · have hin : i ∈ drops := (mem_cons.1 hi).resolve_left hik
    have hskip : Before (k :: l.erase k) i j ↔ Before (l.erase k) i j := by
      constructor
      · intro hs
        exact (sublist_cons_iff.1 hs).resolve_right fun ⟨r, hr, _⟩ => hik (List.cons.inj hr).1
      · exact fun hs => hs.cons k
    rw [hskip, idxOf_cons_ne _ hik.symm]
    rcases eq_or_ne j k with rfl | hjk
    · rw [idxOf_cons_self]
      refine iff_of_false (fun hs => hk (hs.subset ?_)) (Nat.not_lt_zero _)
      simp
    · rw [before_erase hik hjk, idxOf_cons_ne _ hjk.symm, h i hin j]
      omega

/-- The invariant: a list that the pointers show, in the order of the latest drops. -/
structure Kept (t : Trace τ) (s : BState τ) : Prop where
  shows_list : Shows t.cache s
  recent : Recent s.list t.drops
  dropped : ∀ i ∈ t.released, (t.cache.buf i).refcnt = 0 → i ∈ t.drops
  released : ∀ i ∈ t.drops, i ∈ t.released

/-- A change that leaves the counts alone, or raises them. -/
theorem Kept.modBuf {t : Trace τ} (h : Kept t s) (i : Fin NBUF) (f : Buf τ → Buf τ)
    (hf : (f (t.cache.buf i)).refcnt = 0 → (t.cache.buf i).refcnt = 0) :
    Kept { t with cache := t.cache.modBuf i f } (s.modBuf i f) := by
  refine ⟨h.shows_list.modBuf i f, h.recent, fun j hj hzero => ?_, h.released⟩
  refine h.dropped j hj ?_
  rcases eq_or_ne j i with rfl | hne
  · exact hf (by simpa [Bcache.modBuf] using hzero)
  · simpa [Bcache.modBuf, hne] using hzero

/-- A buffer that `get` returns is referenced. -/
theorem get_eq_modBuf (hget : c.get dev b = .ok (i, c')) :
    ∃ f : Buf τ → Buf τ, c' = c.modBuf i f ∧ (f (c.buf i)).refcnt ≠ 0 := by
  rw [Bcache.get] at hget
  split at hget
  · cases hget
  · split_ifs at hget
    cases hget
    exact ⟨_, rfl, Nat.succ_ne_zero _⟩
  · split at hget
    · cases hget
    · cases hget
      exact ⟨_, rfl, one_ne_zero⟩
    · cases hget

theorem Kept.put {t : Trace τ} (h : Kept t s) (hput : t.cache.put i = .ok c') :
    Kept ⟨c', i :: t.released, if (c'.buf i).refcnt = 0 then i :: t.drops else t.drops⟩
      (putSection i s) := by
  have hshows := h.shows_list.put hput
  have hbuf : c'.buf = (t.cache.modBuf i fun x => { x with refcnt := x.refcnt - 1 }).buf := by
    rw [Bcache.put] at hput
    split_ifs at hput
    dsimp only at hput
    split_ifs at hput
    · cases hput
      rfl
    · cases hput
      rfl
  have hother : ∀ j, j ≠ i → c'.buf j = t.cache.buf j := fun j hne => by
    simp [hbuf, Bcache.modBuf, hne]
  have hlist : (putSection i s).list =
      if (c'.buf i).refcnt = 0 then i :: s.list.erase i else s.list := by
    have hmod := h.shows_list.modBuf i fun x => { x with refcnt := x.refcnt - 1 }
    rw [putSection, hbuf, hmod.buf]
    split_ifs <;> rfl
  refine ⟨hshows, ?_, fun j hj hzero => ?_, fun j hj => ?_⟩
  · rw [hlist]
    dsimp only
    split_ifs with hdrop
    · exact h.recent.drop h.shows_list.nodup h.shows_list.mem
    · exact h.recent
  · dsimp only at hzero ⊢
    rcases eq_or_ne j i with rfl | hne
    · rw [if_pos hzero]
      exact mem_cons_self
    · have hin := h.dropped j ((mem_cons.1 hj).resolve_left hne) (hother j hne ▸ hzero)
      split_ifs
      · exact mem_cons_of_mem _ hin
      · exact hin
  · dsimp only at hj ⊢
    split_ifs at hj
    · rcases mem_cons.1 hj with rfl | hj
      · exact mem_cons_self
      · exact mem_cons_of_mem _ (h.released j hj)
    · exact mem_cons_of_mem _ (h.released j hj)

/-- **One step.** -/
theorem Kept.step {t t' : Trace τ} {a : Act τ} (h : Kept t s) (hstep : step t a = .ok t') :
    ∃ s', Kept t' s' := by
  cases a with
  | get dev b =>
    simp only [Bcache.step] at hstep
    obtain ⟨⟨i, c'⟩, hget, rfl⟩ := map_eq_ok.1 hstep
    obtain ⟨f, rfl, hf⟩ := get_eq_modBuf hget
    exact ⟨_, h.modBuf i f fun hzero => absurd hzero hf⟩
  | acquire me i =>
    simp only [Bcache.step] at hstep
    split_ifs at hstep <;> cases hstep
    · exact ⟨s, h⟩
    · exact ⟨_, h.modBuf i _ id⟩
  | release i =>
    simp only [Bcache.step] at hstep
    split_ifs at hstep
    cases hstep
    exact ⟨_, h.modBuf i _ id⟩
  | put i =>
    simp only [Bcache.step] at hstep
    obtain ⟨c', hput, rfl⟩ := map_eq_ok.1 hstep
    exact ⟨_, h.put hput⟩
  | flags i valid dirty =>
    cases hstep
    exact ⟨_, h.modBuf i _ id⟩

theorem kept_start (disk : ℕ → ℕ → Block) (lg : Log) : Kept (.start : Trace τ) (.boot disk lg) :=
  ⟨shows_init disk lg, fun _ h => absurd h not_mem_nil, fun _ h => absurd h not_mem_nil,
    fun _ h => absurd h not_mem_nil⟩

/-- **Every run.** -/
theorem kept_run {as : List (Act τ)} {t : Trace τ} (h : run as = .ok t) : ∃ s, Kept t s :=
  foldlM_ok (I := fun _ t => ∃ s, Kept t s)
    ⟨_, kept_start (fun _ _ => .zero) ⟨0, 0, 0, false, []⟩⟩
    (fun _ _ _ _ ⟨_, hk⟩ hstep => hk.step hstep) h

/-- A `get` that recycles takes the last buffer of the list that may be. -/
theorem Shows.recycled (h : Shows c s) (hget : c.get dev b = .ok (i, c'))
    (hmiss : ∀ j, (c.buf j).hasTag dev b = false) :
    ∃ l₁ l₂, s.list = l₁ ++ i :: l₂ ∧ (c.buf i).idle = true ∧
      ∀ j ∈ l₂, (c.buf j).idle = false := by
  obtain ⟨s', hsection, -, -⟩ := h.get hget
  rw [h.buf] at hmiss ⊢
  have hnone : (s.list.find? fun i => (s.buf i).hasTag dev b) = none := by
    simp [hmiss]
  rw [getSection, hnone] at hsection
  cases hidle : s.list.reverse.find? fun i => (s.buf i).idle with
  | none =>
    rw [hidle] at hsection
    cases hsection
  | some j =>
    rw [hidle] at hsection
    cases hsection
    obtain ⟨hi, l₁, l₂, hrev, hbefore⟩ := find?_eq_some_iff_append.1 hidle
    refine ⟨l₂.reverse, l₁.reverse, ?_, hi, fun j hj => ?_⟩
    · rw [← reverse_reverse s.list, hrev]
      simp
    · simpa using hbefore j (mem_reverse.1 hj)

/-- **The list of buffers.**  After `init` and any sequence of steps of `get` and `release_buf`,
with flags set in between: following `next` from the head one visits each buffer once and comes back
to the head; `prev` and `next` undo each other; the unreferenced buffers that have been released
stand in the order of their latest drops, before those never released; `get` comes to an end, and if
it recycles a buffer then the last in the list that is unreferenced and clean. -/
theorem buffer_list {as : List (Act τ)} {t : Trace τ} (h : run as = .ok t) :
    ∃ l : List (Fin NBUF), l.Perm (List.finRange NBUF) ∧
      Ring t.cache.links.next none (l.map some) ∧
      (∀ x, t.cache.links.prev (t.cache.links.next x) = x ∧
        t.cache.links.next (t.cache.links.prev x) = x) ∧
      (∀ i ∈ t.released, (t.cache.buf i).refcnt = 0 →
        i ∈ t.drops ∧
        (∀ j ∈ t.released, (t.cache.buf j).refcnt = 0 →
          (Before l i j ↔ t.drops.idxOf i < t.drops.idxOf j)) ∧
        ∀ j, j ∉ t.released → Before l i j) ∧
      ∀ dev b, t.cache.get dev b ≠ .error .spins ∧
        ∀ i c', t.cache.get dev b = .ok (i, c') → (∀ j, (t.cache.buf j).hasTag dev b = false) →
          ∃ l₁ l₂, l = l₁ ++ i :: l₂ ∧ (t.cache.buf i).idle = true ∧
            ∀ j ∈ l₂, (t.cache.buf j).idle = false := by
  obtain ⟨s, hk⟩ := kept_run h
  have hshows := hk.shows_list
  have hall : ∀ x : Node, x ∈ none :: s.list.map some := fun x => by
    cases x with
    | none => exact mem_cons_self
    | some i => exact mem_cons_of_mem _ (mem_map_of_mem (hshows.mem i))
  refine ⟨s.list, hshows.all, hshows.cycle.ring, fun x => ?_, fun i hi hzero => ?_, fun dev b => ?_⟩
  · exact ⟨hshows.cycle.prev_next (hall x), hshows.cycle.next_prev (hall x)⟩
  · have hdrop := hk.dropped i hi hzero
    refine ⟨hdrop, fun j _ _ => hk.recent i hdrop j, fun j hj => ?_⟩
    rw [hk.recent i hdrop j, idxOf_eq_length fun hin => hj (hk.released j hin)]
    exact idxOf_lt_length_of_mem hdrop
  · exact ⟨hshows.get_ne_spins, fun i c' hget hmiss => hshows.recycled hget hmiss⟩

/-- A block is read into a buffer, and the buffer is released. -/
def oneRead (i : Fin NBUF) : List (Act ℕ) := [.get 1 5, .acquire 3 i, .release i, .put i]

theorem buffer_list_oneRead : ∃ (i : Fin NBUF) (t : Trace ℕ) (l : List (Fin NBUF)),
    run (oneRead i) = .ok t ∧ l.Perm (List.finRange NBUF) ∧
      Ring t.cache.links.next none (l.map some) := by
  have hok : (run (oneRead 0)).isOk = true := by decide +kernel
  cases h : run (oneRead 0) with
  | ok t =>
    obtain ⟨l, hperm, hring, -⟩ := buffer_list h
    exact ⟨0, t, l, h, hperm, hring⟩
  | error e =>
    rw [h] at hok
    cases hok

end Bcache

end Xv6.Fs
