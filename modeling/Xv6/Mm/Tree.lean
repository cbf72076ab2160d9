import Xv6.Mm.Vm
import Xv6.Lib.Radix
import Xv6.Lib.Ledger

/-!
# Page tables as trees of frames

The frames of a page table are addressed by paths of indices from its root: a path of at
most three indices leads to a table, one of four to a user page.  `Owned` says that every
frame given to the allocator is in one place: the free list, one path of one tree, or one
of the single pages the rest of the kernel holds.

* `node`, `pte` — the tree and the user entries as the words in memory give them.
* `spots_insert`, `spots_clear`, `spots_congr` — what one changed entry does to all paths.
* `Owned.insert`, `Owned.clear`, `Owned.hold`, `Owned.rest` — ownership step by step.
-/

namespace Xv6.Mm

open Lib Function List

/-! ## Paths -/

/-- The frame that entry `i` of a table refers to. -/
def child (ram : ℕ → Page) (t i : ℕ) : Option ℕ :=
  if present ((ram t).entry i) then some (frameOf ((ram t).entry i)) else none

/-- The frame at the end of a path from a root table. -/
abbrev node (ram : ℕ → Page) (r : ℕ) (p : List ℕ) : Option ℕ := follow (child ram) r p

/-- Paths of the user half, at most down to the user pages. -/
structure User (p : List ℕ) : Prop where
  /-- Four levels. -/
  length : p.length ≤ 4
  /-- 512 entries each. -/
  lt : ∀ i ∈ p, i < 512
  /-- The root's lower half. -/
  head : ∀ i ∈ p.head?, i < 256

instance : DecidablePred User := fun p =>
  decidable_of_iff (p.length ≤ 4 ∧ (∀ i ∈ p, i < 512) ∧ ∀ i ∈ p.head?, i < 256)
    ⟨fun h => ⟨h.1, h.2.1, h.2.2⟩, fun h => ⟨h.1, h.2, h.3⟩⟩

/-- Paths that lead to tables. -/
def Table (p : List ℕ) : Prop := User p ∧ p.length ≤ 3

theorem User.of_append {p s : List ℕ} (h : User (p ++ s)) : User p where
  length := by
    have := h.length
    rw [length_append] at this
    omega
  lt i hi := h.lt i (mem_append_left s hi)
  head i hi := by
    cases p with
    | nil => cases hi
    | cons j p => exact h.head i hi

theorem Table.of_append {p s : List ℕ} (h : Table (p ++ s)) : Table p := by
  refine ⟨h.1.of_append, ?_⟩
  have := h.2
  rw [length_append] at this
  omega

theorem table_nil : Table [] := ⟨⟨by simp, by simp, by simp⟩, by simp⟩

/-- The inner paths of a user path lead to tables. -/
theorem User.table {p s : List ℕ} {i : ℕ} (h : User (p ++ i :: s)) : Table p := by
  refine ⟨h.of_append, ?_⟩
  have := h.length
  rw [length_append, length_cons] at this
  omega

/-- Pages of the user half: below `2 ^ 47`. -/
abbrev UPAGES : ℕ := 2 ^ 35

theorem user_index {v : ℕ} (hv : v < UPAGES) : User (index v) where
  length := by simp [index]
  lt i hi := by
    simp only [index, mem_cons, not_mem_nil, or_false] at hi
    omega
  head i hi := by
    change v < 2 ^ 35 at hv
    simp only [index, head?_cons, Option.mem_def, Option.some.injEq] at hi
    omega

/-- The path to the last-level table of a page. -/
def tablePath (v : ℕ) : List ℕ := [v / 512 ^ 3 % 512, v / 512 ^ 2 % 512, v / 512 % 512]

theorem index_eq (v : ℕ) : index v = tablePath v ++ [v % 512] := rfl

theorem table_tablePath {v : ℕ} (hv : v < UPAGES) : Table (tablePath v) :=
  (index_eq v ▸ user_index hv : User (tablePath v ++ v % 512 :: [])).table

theorem tablePath_inj {v w : ℕ} (hv : v < UPAGES) (hw : w < UPAGES)
    (h : tablePath v = tablePath w) (hlast : v % 512 = w % 512) : v = w := by
  change v < 2 ^ 35 at hv
  change w < 2 ^ 35 at hw
  exact index_inj (by omega) (by omega) (by rw [index_eq, index_eq, h, hlast])

/-- The entry of a page, `0` where its table is missing. -/
def pte (ram : ℕ → Page) (r v : ℕ) : ℕ :=
  match node ram r (tablePath v) with
  | some t => (ram t).entry (v % 512)
  | none => 0

variable {ram ram' : ℕ → Page} {r t i f fl v w : ℕ} {p q : List ℕ}

theorem pte_of_node (h : node ram r (tablePath v) = some t) :
    pte ram r v = (ram t).entry (v % 512) := by
  rw [pte, h]

/-- A page is mapped where its entry is present. -/
theorem node_index (ram : ℕ → Page) (r v : ℕ) : node ram r (index v) =
    if present (pte ram r v) then some (frameOf (pte ram r v)) else none := by
  rw [index_eq, node, follow_append, pte]
  cases h : node ram r (tablePath v) with
  | none =>
    rw [node] at h
    rw [h, present_zero]
    rfl
  | some t =>
    rw [node] at h
    rw [h, Option.bind_some, follow_cons]
    change (child ram t (v % 512)).bind _ = child ram t (v % 512)
    cases child ram t (v % 512) <;> rfl

theorem child_of_entry {e : ℕ} (h : (ram t).entry i = e) :
    child ram t i = if present e then some (frameOf e) else none := by
  rw [child, h]

theorem child_congr (h : (ram' t).entry i = (ram t).entry i) : child ram' t i = child ram t i := by
  rw [child, child, h]

theorem child_fill_zero (h : ram t = Page.fill 0) : child ram t i = none := by
  rw [child, h, Page.entry_fill_zero, present_zero]
  rfl

/-- A frame that is no table may be written. -/
theorem node_write (hram : ∀ g, g ≠ f → ram' g = ram g)
    (hnot : ∀ p, Table p → node ram r p ≠ some f) (hp : User p) : node ram' r p = node ram r p := by
  refine follow_congr fun p' j s he u hu => child_congr ?_
  rw [hram u]
  rintro rfl
  exact hnot p' (he ▸ hp : User (p' ++ j :: s)).table hu

theorem pte_write (hram : ∀ g, g ≠ f → ram' g = ram g)
    (hnot : ∀ p, Table p → node ram r p ≠ some f) (hv : v < UPAGES) :
      pte ram' r v = pte ram r v := by
  rw [pte, pte, node_write hram hnot (table_tablePath hv).1]
  cases ht : node ram r (tablePath v) with
  | none => rfl
  | some t =>
    change (ram' t).entry _ = (ram t).entry _
    rw [hram t]
    rintro rfl
    exact hnot _ (table_tablePath hv) ht

/-! ## Places -/

variable {κ σ : Type}

/-- Where a frame that is not free can be: at a path of one of the trees `κ`, or as one of
the single pages `σ`. -/
inductive Spot (κ σ : Type) where
  /-- At a path of a tree. -/
  | tree (k : κ) (p : List ℕ)
  /-- A page on its own. -/
  | solo (x : σ)
  deriving DecidableEq

/-- What is in a place, given the roots and the single pages. -/
def spots (ram : ℕ → Page) (T : κ → Option ℕ) (S : σ → Option ℕ) : Spot κ σ → Option ℕ
  | .tree k p => if User p then (T k).bind fun r => node ram r p else none
  | .solo x => S x

variable {T : κ → Option ℕ} {S : σ → Option ℕ} {k : κ} {m m' : Mem} {l l' : List ℕ}

theorem spots_tree (hk : T k = some r) (hp : User p) :
    spots ram T S (.tree k p) = node ram r p := by
  rw [spots, if_pos hp, hk, Option.bind_some]

/-- A frame in a place of a tree is a node of it. -/
theorem node_of_spots {f : ℕ} (h : spots ram T S (.tree k p) = some f) :
    ∃ r, T k = some r ∧ User p ∧ node ram r p = some f := by
  rw [spots] at h
  split_ifs at h with hp
  obtain ⟨r, hk, hn⟩ := Option.bind_eq_some_iff.1 h
  exact ⟨r, hk, hp, hn⟩

/-- Nothing changes where the tables do not. -/
theorem spots_congr
    (h : ∀ k r p u, T k = some r → Table p → node ram r p = some u → ∀ i,
      child ram' u i = child ram u i)
    (x : Spot κ σ) : spots ram' T S x = spots ram T S x := by
  cases x with
  | solo x => rfl
  | tree k p =>
    rw [spots, spots]
    split_ifs with hp
    · cases hk : T k with
      | none => rw [Option.bind_none, Option.bind_none]
      | some r =>
        rw [Option.bind_some, Option.bind_some]
        refine follow_congr fun p' j s he u hu => h k r p' u hk ?_ hu j
        rw [he] at hp
        exact hp.table
    · rfl

/-- Every frame given to the allocator is in one place. -/
structure Owned (m : Mem) (l : List ℕ) (T : κ → Option ℕ) (S : σ → Option ℕ) : Prop where
  /-- The free list. -/
  chain : Chain m.ram m.freelist l
  /-- Every frame is there or in one other place. -/
  ledger : Ledger m.Given l (spots m.ram T S)
  /-- The kernel occupies the first frame. -/
  kernelEnd : 0 < m.kernelEnd

namespace Owned

theorem given (h : Owned m l T S) (hk : T k = some r) (hp : User p) (ht : node m.ram r p = some t) :
    m.Given t :=
  h.ledger.given_of_place (k := .tree k p) (by rw [spots_tree hk hp, ht])

theorem not_free (h : Owned m l T S) (hk : T k = some r) (hp : User p)
    (ht : node m.ram r p = some t) : t ∉ l :=
  h.ledger.apart (.tree k p) t (by rw [spots_tree hk hp, ht])

theorem ne_zero (h : Owned m l T S) (hf : m.Given f) : f ≠ 0 := by
  have h1 := h.kernelEnd
  have h2 := hf.1
  omega

theorem free_lt (h : Owned m l T S) : ∀ f ∈ l, f < PHYSTOP / PGSIZE := fun _ hf =>
  (h.ledger.given_of_free hf).2

/-- Two paths of one tree lead to different frames. -/
theorem path_inj (h : Owned m l T S) (hk : T k = some r) (hp : User p) (hq : User q)
    (h₁ : node m.ram r p = some t) (h₂ : node m.ram r q = some t) : p = q := by
  have he := h.ledger.inj (.tree k p) (.tree k q) t (by rw [spots_tree hk hp, h₁])
    (by rw [spots_tree hk hq, h₂])
  injection he

theorem alone (h : Owned m l T S) (hk : T k = some r) (hp : Table p)
    (ht : node m.ram r p = some t) : Alone (child m.ram) r Table p := fun _ hq he =>
  h.path_inj hk hq.1 hp.1 (he.trans ht) ht

/-- Two trees have no frame in common. -/
theorem tree_inj (h : Owned m l T S) {k' : κ} {r' : ℕ} (hk : T k = some r) (hk' : T k' = some r')
    (hp : User p) (hq : User q) (h₁ : node m.ram r p = some t) (h₂ : node m.ram r' q = some t) :
    k = k' := by
  have he := h.ledger.inj (.tree k p) (.tree k' q) t (by rw [spots_tree hk hp, h₁])
    (by rw [spots_tree hk' hq, h₂])
  injection he

theorem ne_solo (h : Owned m l T S) {x : σ} (hk : T k = some r) (hp : User p)
    (ht : node m.ram r p = some t) (hx : S x = some f) : t ≠ f :=
  h.ledger.ne_of_ne (k := .tree k p) (by rw [spots_tree hk hp, ht])
    (show spots m.ram T S (.solo x) = some f from hx) (by rintro ⟨⟩)

end Owned

/-! ## One changed entry -/

/-- What a path leads to once entry `i` of the table at `p` refers to `c`, `f` being a frame
no inner path leads to. -/
theorem node_setEntry {c : Option ℕ} (hk : T k = some r) (h : Owned m l T S) (hp : Table p)
    (ht : node m.ram r p = some t)
    (hfresh : ∀ q, Table q → node m.ram r q ≠ some f)
    (hsame : ∀ u j, u ≠ f → (u = t → j ≠ i) → child ram' u j = child m.ram u j)
    (hset : child ram' t i = c) (hleaf : ∀ j, c = some f → p.length < 3 → child ram' f j = none)
    (hc : c = some f ∨ c = none) (hbefore : p.length < 3 → child m.ram t i = none) (hq : User q) :
    node ram' r q = if q = p ++ [i] then c else node m.ram r q := by
  rw [node, follow_setEdge (G := child m.ram) (P := Table) (N := (· = f))
    (fun _ _ => Table.of_append)
    hp ht (h.alone hk hp ht) (fun q' u hq' hu he => hfresh q' hq' (he ▸ hu)) hsame
    (fun p' j s he => (he ▸ hq : User (p' ++ j :: s)).table), hset]
  by_cases hpre : p ++ [i] <+: q
  · rw [if_pos hpre]
    obtain ⟨s, rfl⟩ := hpre
    rw [append_assoc, drop_append, drop_of_length_le (Nat.le_succ _),
      Nat.add_sub_cancel_left, singleton_append, drop_succ_cons, drop_zero, nil_append]
    cases s with
    | nil =>
      rw [if_pos rfl]
      cases c <;> rfl
    | cons j s =>
      -- the path goes on below the new entry: nothing is there
      have hlen : p.length < 3 := by
        have := hq.length
        simp only [length_append, length_cons, length_nil] at this
        omega
      have hold : node m.ram r (p ++ i :: j :: s) = none := by
        rw [node, follow_append, show follow (child m.ram) r p = some t from ht, Option.bind_some,
          follow_cons, hbefore hlen, Option.bind_none]
      rw [if_neg (by simp), hold]
      rcases hc with hc | hc
      · rw [hc, Option.bind_some, follow_cons, hleaf j hc hlen, Option.bind_none]
      · rw [hc, Option.bind_none]
  · have hne : q ≠ p ++ [i] := by
      rintro rfl
      exact hpre (prefix_refl _)
    rw [if_neg hpre, if_neg hne]

theorem spots_setEntry [DecidableEq κ] [DecidableEq σ] {c : Option ℕ} (hk : T k = some r)
    (h : Owned m l T S) (hp : Table p)
    (ht : node m.ram r p = some t) (hpi : User (p ++ [i]))
    (hfresh : ∀ k r q, T k = some r → Table q → node m.ram r q ≠ some f)
    (hsame : ∀ u j, u ≠ f → (u = t → j ≠ i) → child ram' u j = child m.ram u j)
    (hset : child ram' t i = c) (hleaf : ∀ j, c = some f → p.length < 3 → child ram' f j = none)
    (hc : c = some f ∨ c = none) (hbefore : p.length < 3 → child m.ram t i = none) (x : Spot κ σ) :
    spots ram' T S x = if x = .tree k (p ++ [i]) then c else spots m.ram T S x := by
  cases x with
  | solo x => rw [if_neg (by rintro ⟨⟩)]; rfl
  | tree k' q =>
    by_cases hq : User q
    · by_cases hkk : k' = k
      · subst hkk
        rw [spots_tree hk hq, spots_tree hk hq, node_setEntry hk h hp ht
          (fun q => hfresh k' r q hk) hsame hset hleaf hc hbefore hq]
        simp
      · rw [if_neg (by rintro ⟨⟩; exact hkk rfl)]
        cases hk' : T k' with
        | none => simp [spots, hk']
        | some r' =>
          rw [spots_tree hk' hq, spots_tree hk' hq]
          refine follow_congr fun p' j s he u hu => hsame u j ?_ ?_
          · rintro rfl
            exact hfresh k' r' p' hk' (he ▸ hq : User (p' ++ j :: s)).table hu
          · rintro rfl
            exact absurd (h.tree_inj hk' hk (he ▸ hq : User (p' ++ j :: s)).table.1 hp.1 hu ht) hkk
    · have hne : Spot.tree k' q ≠ (.tree k (p ++ [i]) : Spot κ σ) := by
        rintro ⟨⟩
        exact hq hpi
      rw [spots, if_neg hq, spots, if_neg hq, if_neg hne]

/-! ## Ownership step by step -/

/-- The single pages and one more in hand, or none. -/
def hand (S : σ → Option ℕ) (o : Option ℕ) : Option σ → Option ℕ
  | none => o
  | some x => S x

/-- The place among those with nothing in hand. -/
def unhand : Spot κ (Option σ) → Option (Spot κ σ)
  | .tree k p => some (.tree k p)
  | .solo none => none
  | .solo (some x) => some (.solo x)

theorem spots_hand (ram : ℕ → Page) (T : κ → Option ℕ) (S : σ → Option ℕ)
    (x : Spot κ (Option σ)) :
    spots ram T (hand S none) x = (unhand x).bind (spots ram T S) := by
  rcases x with ⟨k, p⟩ | _ | x <;> rfl

theorem Mem.Given.lt (h : m.Given f) : f < 2 ^ 52 := lt_trans h.2 (by decide)

namespace Owned

theorem empty (h : Owned m l T S) : Owned m l T (hand S none) where
  chain := h.chain
  ledger := by
    refine h.ledger.reindex unhand (spots_hand m.ram T S) ?_ ?_
    · rintro (⟨k, p⟩ | _ | x) (⟨k', p'⟩ | _ | x') y h₁ h₂ - <;> cases h₁ <;> cases h₂ <;> rfl
    · rintro (⟨k, p⟩ | x) -
      · exact ⟨.tree k p, rfl⟩
      · exact ⟨.solo (some x), rfl⟩
  kernelEnd := h.kernelEnd

theorem of_empty (h : Owned m l T (hand S none)) : Owned m l T S where
  chain := h.chain
  ledger := by
    refine h.ledger.reindex (fun | .tree k p => some (.tree k p) | .solo x => some (.solo (some x)))
      ?_ ?_ ?_
    · rintro (⟨k, p⟩ | x) <;> rfl
    · rintro (⟨k, p⟩ | x) (⟨k', p'⟩ | x') y h₁ h₂ - <;> cases h₁ <;> cases h₂ <;> rfl
    · rintro (⟨k, p⟩ | _ | x) hs
      · exact ⟨.tree k p, rfl⟩
      · exact absurd hs (by simp [spots, hand])
      · exact ⟨.solo x, rfl⟩
  kernelEnd := h.kernelEnd

/-- The frames in memory may change where they are neither free nor tables. -/
theorem of_ram (h : Owned m l T S) (hend : m'.kernelEnd = m.kernelEnd)
    (hlist : m'.freelist = m.freelist) (hfree : ∀ f ∈ l, m'.ram f = m.ram f)
    (htables : ∀ k r p u, T k = some r → Table p → node m.ram r p = some u →
      ∀ i, child m'.ram u i = child m.ram u i) : Owned m' l T S where
  chain := by
    rw [hlist]
    exact h.chain.congr hfree
  ledger := by
    have hgiven : m'.Given = m.Given := by
      funext f
      rw [Mem.Given, Mem.Given, hend]
    rw [hgiven, funext (spots_congr htables)]
    exact h.ledger
  kernelEnd := hend ▸ h.kernelEnd

/-- Writing a frame that is neither free nor a table. -/
theorem write (h : Owned m l T S) (hf : f ∉ l)
    (htables : ∀ k r p, T k = some r → Table p → node m.ram r p ≠ some f) (pg : Page) :
    Owned (m.write f pg) l T S := by
  refine h.of_ram rfl rfl (fun g hg => update_of_ne (by rintro rfl; exact hf hg) _ _) ?_
  intro k r p u hk hp hu i
  refine child_congr ?_
  change (update m.ram f pg u).entry i = _
  rw [update_of_ne]
  rintro rfl
  exact htables k r p hk hp hu

/-- The head of the free list in hand, with any contents. -/
theorem hold [DecidableEq κ] [DecidableEq σ] (h : Owned m (f :: l) T S) (pg : Page) :
    Owned (m.popped.write f pg) l T (hand S (some f)) := by
  have h₀ := h.empty
  have hnot : f ∉ l := (nodup_cons.1 h.ledger.nodup).1
  have htables : ∀ k r p, T k = some r → Table p → node m.ram r p ≠ some f := fun k r p hk hp hu =>
    h.not_free hk hp.1 hu mem_cons_self
  have h₁ : Owned m.popped l T (hand S (some f)) := by
    refine ⟨h.chain.popped, ?_, h.kernelEnd⟩
    refine h₀.ledger.take (k := .solo none) rfl ?_
    rintro (⟨k, p⟩ | _ | x)
    · rw [if_neg (by rintro ⟨⟩)]
      rfl
    · rw [if_pos rfl]
      rfl
    · rw [if_neg (by rintro ⟨⟩)]
      rfl
  exact h₁.write hnot htables pg

/-- What is in hand is in no tree. -/
theorem hand_fresh (h : Owned m l T (hand S (some f))) (k : κ) (r : ℕ) (q : List ℕ)
    (hk : T k = some r) (hq : Table q) : node m.ram r q ≠ some f := fun hu =>
  h.ne_solo (x := none) hk hq.1 hu rfl rfl

theorem hand_given (h : Owned m l T (hand S (some f))) : m.Given f :=
  h.ledger.given_of_place (k := .solo none) rfl

theorem hand_not_free (h : Owned m l T (hand S (some f))) : f ∉ l :=
  h.ledger.apart (.solo none) f rfl

variable [DecidableEq κ] [DecidableEq σ]

/-- The frame in hand back on the list. -/
theorem unhanded (h : Owned m l T (hand S (some f))) :
    Ledger m.Given (f :: l) (spots m.ram T (hand S none)) := by
  refine h.ledger.give (k := .solo none) rfl ?_
  rintro (⟨k, q⟩ | _ | x)
  · rw [if_neg (by rintro ⟨⟩)]
    rfl
  · rw [if_pos rfl]
    rfl
  · rw [if_neg (by rintro ⟨⟩)]
    rfl

/-- The frame in hand put into a tree. -/
theorem insert (h : Owned m l T (hand S (some f))) (hk : T k = some r) (hp : Table p)
    (ht : node m.ram r p = some t) (hpi : User (p ++ [i])) (hnone : child m.ram t i = none)
    (hfl : fl < PGSIZE) (hP : fl.testBit 0 = true) (hzero : p.length < 3 → m.ram f = Page.fill 0) :
    Owned (m.setEntry t i (mkEntry f fl)) l T S ∧
      ∀ q, User q → node (m.setEntry t i (mkEntry f fl)).ram r q =
        if q = p ++ [i] then some f else node m.ram r q := by
  have hfresh := h.hand_fresh
  have hne : t ≠ f := fun he => hfresh k r p hk hp (he ▸ ht)
  have hlt : mkEntry f fl < 2 ^ 64 := mkEntry_lt h.hand_given.lt hfl
  have hram : ∀ u, u ≠ t → (m.setEntry t i (mkEntry f fl)).ram u = m.ram u := fun u hu =>
    update_of_ne hu _ _
  have hself : (m.setEntry t i (mkEntry f fl)).ram t = (m.ram t).setEntry i (mkEntry f fl) :=
    update_self _ _ _
  have hset : child (m.setEntry t i (mkEntry f fl)).ram t i = some f := by
    rw [child_of_entry (e := mkEntry f fl), present_mkEntry hfl, hP, frameOf_mkEntry hfl]
    · rfl
    · rw [hself, Page.entry_setEntry_self hlt]
  have hsame : ∀ u j, u ≠ f → (u = t → j ≠ i) →
      child (m.setEntry t i (mkEntry f fl)).ram u j = child m.ram u j := by
    intro u j _ hj
    refine child_congr ?_
    by_cases hu : u = t
    · subst hu
      rw [hself, Page.entry_setEntry_of_ne (hj rfl)]
    · rw [hram u hu]
  have hleaf : ∀ j, some f = some f → p.length < 3 →
      child (m.setEntry t i (mkEntry f fl)).ram f j = none := by
    intro j _ hlen
    exact child_fill_zero (by rw [hram f hne.symm, hzero hlen])
  refine ⟨of_empty ⟨?_, ?_, h.kernelEnd⟩, fun q hq => node_setEntry hk h hp ht
    (fun q => hfresh k r q hk) hsame hset hleaf (Or.inl rfl) (fun _ => hnone) hq⟩
  · refine h.chain.congr fun g hg => hram g ?_
    rintro rfl
    exact h.not_free hk hp.1 ht hg
  · -- the frame goes from the hand to the path
    have hspots := spots_setEntry hk h hp ht hpi hfresh hsame hset hleaf (Or.inl rfl)
      (fun _ => hnone)
    refine h.unhanded.take (k := .tree k (p ++ [i])) ?_ fun x => ?_
    · rw [spots_tree hk hpi, node, follow_concat ht, hnone]
    · rcases x with ⟨k', q⟩ | x
      · exact hspots (.tree k' q)
      · rw [if_neg (by rintro ⟨⟩)]
        rfl

/-- A user page freed and its entry cleared. -/
theorem clear (h : Owned m l T S) (hk : T k = some r) (hp : Table p) (hlen : p.length = 3)
    (ht : node m.ram r p = some t) (hpi : User (p ++ [i])) (hf : child m.ram t i = some f) :
    Owned ((m.pushed f).setEntry t i 0) (f :: l) T S ∧
      ∀ q, User q → node ((m.pushed f).setEntry t i 0).ram r q =
        if q = p ++ [i] then none else node m.ram r q := by
  have hleafnode : node m.ram r (p ++ [i]) = some f := by rw [node, follow_concat ht, hf]
  have hgiven := h.given hk hpi hleafnode
  have hnot := h.not_free hk hpi hleafnode
  have hfresh : ∀ k r q, T k = some r → Table q → node m.ram r q ≠ some f := by
    intro k' r' q hk' hq hu
    have hkk := h.tree_inj hk' hk hq.1 hpi hu hleafnode
    subst hkk
    rw [hk] at hk'
    cases hk'
    have hqp := h.path_inj hk hq.1 hpi hu hleafnode
    have h1 := hq.2
    rw [hqp, length_append, hlen] at h1
    simp at h1
  have hne : t ≠ f := fun he => hfresh k r p hk hp (he ▸ ht)
  have hpush : ∀ u, u ≠ f → (m.pushed f).ram u = m.ram u := fun u hu => update_of_ne hu _ _
  have hself : ((m.pushed f).setEntry t i 0).ram t = (m.ram t).setEntry i 0 := by
    change update _ t _ t = _
    rw [update_self, hpush t hne]
  have hother : ∀ u, u ≠ t → ((m.pushed f).setEntry t i 0).ram u = (m.pushed f).ram u := fun u hu =>
    update_of_ne hu _ _
  have hset : child ((m.pushed f).setEntry t i 0).ram t i = none := by
    rw [child_of_entry (e := 0), present_zero]
    · rfl
    · rw [hself, Page.entry_setEntry_self (by decide)]
  have hsame : ∀ u j, u ≠ f → (u = t → j ≠ i) →
      child ((m.pushed f).setEntry t i 0).ram u j = child m.ram u j := by
    intro u j huf hj
    refine child_congr ?_
    by_cases hu : u = t
    · subst hu
      rw [hself, Page.entry_setEntry_of_ne (hj rfl)]
    · rw [hother u hu, hpush u huf]
  have hthree : ¬p.length < 3 := by omega
  refine ⟨⟨?_, ?_, h.kernelEnd⟩, fun q hq => node_setEntry hk h hp ht
    (fun q => hfresh k r q hk) hsame hset (fun _ hc => by cases hc) (Or.inr rfl)
    (fun hlt => absurd hlt hthree) hq⟩
  · refine (h.chain.pushed h.free_lt hnot (h.ne_zero hgiven)).congr fun g hg => hother g ?_
    rintro rfl
    rcases mem_cons.1 hg with he | hg
    · exact hne he
    · exact h.not_free hk hp.1 ht hg
  · refine h.ledger.give (k := .tree k (p ++ [i])) (by rw [spots_tree hk hpi, hleafnode]) fun x =>
      spots_setEntry hk h hp ht hpi hfresh hsame hset (fun _ hc => by cases hc) (Or.inr rfl)
        (fun hlt => absurd hlt hthree) x

/-- The frame in hand made the root of a new tree, its user half empty. -/
theorem root (h : Owned m l T (hand S (some f))) (hk : T k = none)
    (hzero : ∀ i, i < 256 → child m.ram f i = none) :
    Owned m l (update T k (some f)) S := by
  refine of_empty ⟨h.chain, ?_, h.kernelEnd⟩
  have hnode : ∀ p, User p → node m.ram f p = if p = [] then some f else none := by
    intro p hp
    cases p with
    | nil => rfl
    | cons i p =>
      rw [if_neg (cons_ne_nil i p), node, follow_cons, hzero i (hp.head i rfl), Option.bind_none]
  refine h.unhanded.take (k := .tree k []) ?_ ?_
  · simp [spots, hk]
  · rintro (⟨k', q⟩ | x)
    · by_cases hkk : k' = k
      · subst hkk
        by_cases hq : User q
        · rw [spots_tree (update_self _ _ _) hq, hnode q hq]
          by_cases he : q = []
          · rw [if_pos he, if_pos (by rw [he])]
          · rw [if_neg he, if_neg (by rintro ⟨⟩; exact he rfl)]
            simp [spots, hk]
        · rw [spots, if_neg hq, spots, if_neg hq, if_neg]
          rintro ⟨⟩
          exact hq table_nil.1
      · rw [if_neg (by rintro ⟨⟩; exact hkk rfl)]
        simp only [spots, update_of_ne hkk]
    · rw [if_neg (by rintro ⟨⟩)]
      rfl

end Owned

end Xv6.Mm
