import Xv6.Mm.Walk

/-!
# Address spaces

What a process sees through its page table: `view` gives the permissions and the contents
of every page of the user half.  The functions of `vm.rs` are stated by what they do to
the view, to the free list and to the frames of everybody else.

* `view` — the user memory behind a root table.
* `wp_setupkvm`, `wp_allocuvm`, `wp_deallocuvm`, `wp_freevm` — address spaces made, grown,
  shrunk and freed.
* `frames` — the frames of a tree in the order `freevm` frees them.
-/

namespace Xv6.Mm

open Lib Prog Function List

variable {κ σ : Type} {T : κ → Option ℕ} {S : σ → Option ℕ} {k : κ} {m m' m'' : Mem}
  {ram ram' : ℕ → Page} {l l' used fs : List ℕ} {r t i f v w va n : ℕ} {p q : List ℕ}
  {E : String → Prop}

/-! ## What a process sees -/

/-- The flags and the contents of a page, if it is mapped. -/
def view (ram : ℕ → Page) (r v : ℕ) : Option (ℕ × Page) :=
  if present (pte ram r v) then some (flagsOf (pte ram r v), ram (frameOf (pte ram r v))) else none

theorem view_eq_none_iff : view ram r v = none ↔ present (pte ram r v) = false := by
  rw [view]
  cases present (pte ram r v) <;> simp

theorem view_of_pte {e : ℕ} (h : pte ram r v = e) (he : present e = true) :
    view ram r v = some (flagsOf e, ram (frameOf e)) := by
  rw [view, h, if_pos he]

/-- The frame of a mapped page is at the page's path. -/
theorem node_index_of_present (h : present (pte ram r v) = true) :
    node ram r (index v) = some (frameOf (pte ram r v)) := by
  rw [node_index, if_pos h]

/-- Where the entry and the frame are the same, so is the view. -/
theorem view_congr_of_pte (hp : pte ram' r v = pte ram r v)
    (hf : present (pte ram r v) = true → ram' (frameOf (pte ram r v)) =
      ram (frameOf (pte ram r v))) :
    view ram' r v = view ram r v := by
  rw [view, view, hp]
  split_ifs with h
  · rw [hf h]
  · rfl

/-- A tree whose frames keep their contents keeps its paths. -/
theorem node_congr (h : ∀ p t, Table p → node ram r p = some t → ram' t = ram t) (hq : User q) :
    node ram' r q = node ram r q := by
  refine follow_congr fun p' j s he u hu => child_congr ?_
  rw [h p' u (he ▸ hq : User (p' ++ j :: s)).table hu]

theorem pte_congr (h : ∀ p t, Table p → node ram r p = some t → ram' t = ram t) (hv : v < UPAGES) :
    pte ram' r v = pte ram r v := by
  rw [pte, pte, node_congr h (table_tablePath hv).1]
  cases ht : node ram r (tablePath v) with
  | none => rfl
  | some t =>
    change (ram' t).entry _ = (ram t).entry _
    rw [h _ t (table_tablePath hv) ht]

/-- Where all its frames keep their contents, the address space is the same. -/
theorem view_congr (h : ∀ p t, User p → node ram r p = some t → ram' t = ram t) (hv : v < UPAGES) :
    view ram' r v = view ram r v :=
  view_congr_of_pte (pte_congr (fun p t hp => h p t hp.1) hv) fun hp =>
    h _ _ (user_index hv) (node_index_of_present hp)

/-- The frame of a user page is no table. -/
theorem Owned.leaf_ne (h : Owned m l T S) (hk : T k = some r) (hv : v < UPAGES)
    (hp : present (pte m.ram r v) = true) (hq : Table q) :
    node m.ram r q ≠ some (frameOf (pte m.ram r v)) := by
  intro hn
  have he := h.path_inj hk hq.1 (user_index hv) hn (node_index_of_present hp)
  have hlen := hq.2
  rw [he] at hlen
  exact absurd hlen (by simp [index])

/-- A page has the frame, the flags and the contents it had. -/
def Unchanged (m m' : Mem) (r v : ℕ) : Prop :=
  node m'.ram r (index v) = node m.ram r (index v) ∧ view m'.ram r v = view m.ram r v

theorem unchanged_refl : Unchanged m m r v := ⟨rfl, rfl⟩

theorem Unchanged.trans (h : Unchanged m m' r v) (h' : Unchanged m' m'' r v) :
    Unchanged m m'' r v :=
  ⟨h'.1.trans h.1, h'.2.trans h.2⟩

theorem unchanged_of_none (h : view m.ram r v = none) (h' : view m'.ram r v = none) :
    Unchanged m m' r v := by
  refine ⟨?_, h'.trans h.symm⟩
  rw [view_eq_none_iff] at h h'
  rw [node_index, node_index, h, h']
  rfl

/-- A tree whose frames keep their contents keeps its pages. -/
theorem unchanged_congr (h : ∀ p t, User p → node m.ram r p = some t → m'.ram t = m.ram t)
    (hv : v < UPAGES) :
    Unchanged m m' r v :=
  ⟨node_congr (fun p t hp => h p t hp.1) (user_index hv), view_congr h hv⟩

/-! ## Growing -/

/-- Where no entry changes, nor does the page. -/
theorem Extends.unchanged {P : List ℕ → Prop} {D : ℕ → Prop} (hx : Extends r P D used m m')
    (h : Owned m l T S)
    (hk : T k = some r) (hl : l = used ++ l') (hw : w < UPAGES) (hD : ¬D w) :
      Unchanged m m' r w := by
  have hpte := hx.pte w hw hD
  refine ⟨by rw [node_index, node_index, hpte], view_congr_of_pte hpte fun hp =>
    hx.same _ (fun hu => ?_)
    fun q hq => h.leaf_ne hk hw hp hq⟩
  exact h.not_free hk (user_index hw) (node_index_of_present hp)
    (by rw [hl]; exact mem_append_left l' hu)

/-- What may be put into a page: flags that say it is there. -/
def Loadable (c : ℕ × Page) : Prop := c.1 < PGSIZE ∧ c.1.testBit 0 = true

theorem loadable_freshPage : Loadable (freshPage v) :=
  ⟨show PTE_P ||| PTE_W ||| PTE_U < PGSIZE by decide,
    show (PTE_P ||| PTE_W ||| PTE_U).testBit 0 = true by decide⟩

theorem loadable_of_view {c : ℕ × Page} (h : view ram r v = some c) : Loadable c := by
  rw [view] at h
  split_ifs at h with hp
  cases h
  have hlt : flagsOf (pte ram r v) < PGSIZE := Nat.mod_lt _ (by decide)
  refine ⟨hlt, ?_⟩
  change (flagsOf (pte ram r v)).testBit 0 = true
  rw [← present_mkEntry (f := frameOf (pte ram r v)) hlt, mkEntry_frameOf, hp]

/-- The view once pages have got their frames. -/
theorem Allocated.view {src : ℕ → ℕ × Page} {vs gs : List ℕ}
    (ha : Allocated r src vs used fs gs m m')
    (h : Owned m l T S) (hk : T k = some r) (hl : l = used ++ l') (hsrc : ∀ w ∈ vs,
      Loadable (src w))
    (hw : w < UPAGES) : view m'.ram r w = if w ∈ vs then some (src w) else view m.ram r w := by
  split_ifs with hmem
  · obtain ⟨f, -, hp, hz⟩ := ha.mapped w hmem
    obtain ⟨hlt, hP⟩ := hsrc w hmem
    rw [view_of_pte hp (by rw [present_mkEntry hlt, hP]), flagsOf_mkEntry hlt,
      frameOf_mkEntry hlt, hz]
  · exact (ha.ext.unchanged h hk hl hw hmem).2

/-- The frames of the other trees are not touched. -/
theorem Extends.same_tree {P : List ℕ → Prop} {D : ℕ → Prop} {k' : κ} {r' : ℕ}
    (hx : Extends r P D used m m') (h : Owned m l T S) (hk : T k = some r) (hl : l = used ++ l')
    (hk' : T k' = some r') (hne : k' ≠ k) (hp : User p) (ht : node m.ram r' p = some t) :
    m'.ram t = m.ram t := by
  refine hx.same t (fun hu => ?_) fun q hq hn => hne (h.tree_inj hk' hk hp hq.1 ht hn)
  exact h.not_free hk' hp ht (by rw [hl]; exact mem_append_left l' hu)

/-! ## Freeing a tree -/

/-- The frames of a tree `n` levels above the user pages, in the order they are freed. -/
def frames (ram : ℕ → Page) : ℕ → ℕ → List ℕ
  | 0, t => [t]
  | n + 1, t => (List.range NPDENTRIES).flatMap (fun i => ((child ram t i).map (frames ram n)).getD
    []) ++ [t]

/-- The frames of the tree of a root table: its lower half. -/
def treeFrames (ram : ℕ → Page) (r : ℕ) : List ℕ :=
  (List.range (NPDENTRIES / 2)).flatMap (fun i => ((child ram r i).map (frames ram 3)).getD
    []) ++ [r]

/-- The frames `fs` of the memory `m` have been freed, and nothing else has changed. -/
structure Freed (m : Mem) (l fs : List ℕ) (m' : Mem) : Prop where
  /-- They are on the list. -/
  chain : Chain m'.ram m'.freelist (fs.reverse ++ l)
  /-- Other frames keep their contents. -/
  same : ∀ g, g ∉ fs → m'.ram g = m.ram g
  /-- The rest of the state. -/
  rest : m'.kernelEnd = m.kernelEnd ∧ m'.kpdpt = m.kpdpt ∧ m'.granted = m.granted

/-- The frames `fs` can be freed: they are given, distinct and not free. -/
structure Freeable (m : Mem) (l fs : List ℕ) : Prop where
  /-- Distinct. -/
  nodup : fs.Nodup
  /-- Given to the allocator. -/
  given : ∀ f ∈ fs, m.Given f
  /-- Not free. -/
  apart : ∀ f ∈ fs, f ∉ l
  /-- The free list has given frames only. -/
  list : ∀ f ∈ l, f < PHYSTOP / PGSIZE
  /-- The kernel occupies the first frame. -/
  kernelEnd : 0 < m.kernelEnd

theorem Freeable.of_append {fs' : List ℕ} (h : Freeable m l (fs ++ fs')) : Freeable m l fs where
  nodup := (nodup_append.1 h.nodup).1
  given f hf := h.given f (mem_append_left fs' hf)
  apart f hf := h.apart f (mem_append_left fs' hf)
  list := h.list
  kernelEnd := h.kernelEnd

theorem wp_kfree_freed {Q : Unit → Mem → Prop} (h : Freed m l fs m') (hf : Freeable m l (fs ++ [f]))
    (hQ : ∀ m'', Freed m l (fs ++ [f]) m'' → Q () m'') : (kfree f).wp E Q m' := by
  have hmem : f ∈ fs ++ [f] := mem_append_right fs (mem_singleton_self f)
  have hgiven := hf.given f hmem
  have hnot : f ∉ fs := fun hc => (nodup_append.1 hf.nodup).2.2 f hc f
    (mem_singleton_self f) rfl
  have hlist : ∀ g ∈ fs.reverse ++ l, g < PHYSTOP / PGSIZE := by
    intro g hg
    rcases mem_append.1 hg with hg | hg
    · exact (hf.given g (mem_append_left _ (mem_reverse.1 hg))).2
    · exact hf.list g hg
  have hzero : f ≠ 0 := by
    have h1 := hgiven.1
    have h2 := hf.kernelEnd
    omega
  refine wp_kfree ⟨by rw [h.rest.1]; exact hgiven.1, hgiven.2⟩ (hQ _ ⟨?_, fun g hg => ?_, h.rest⟩)
  · rw [reverse_append, reverse_singleton, append_assoc, singleton_append]
    refine h.chain.pushed hlist ?_ hzero
    rw [mem_append, mem_reverse, not_or]
    exact ⟨hnot, hf.apart f hmem⟩
  · rw [mem_append, mem_singleton, not_or] at hg
    exact (update_of_ne hg.2 _ _).trans (h.same g hg.1)

/-- One loop of `freevm`, over the entries `is` of the table `t`. -/
theorem wp_freeEntries {is : List ℕ} {body : ℕ → Prog Mem Unit}
    (hbody : ∀ c fs m', Freed m l fs m' → Freeable m l (fs ++ frames m.ram n c) →
      (body c).wp E (fun _ m'' => Freed m l (fs ++ frames m.ram n c) m'') m')
    (h : Freed m l fs m')
    (hf : Freeable m l (fs ++ is.flatMap (fun i => ((child m.ram t i).map (frames m.ram n)).getD
      []) ++ [t])) :
    (Prog.forEach is fun i => do
      let e ← .look fun m => (m.ram t).entry i
      if present e then body (frameOf e) else pure ()).wp E
      (fun _ m'' => Freed m l (fs ++ is.flatMap
        (fun i => ((child m.ram t i).map (frames m.ram n)).getD [])) m'') m' := by
  induction is generalizing fs m' with
  | nil =>
    rw [flatMap_nil, List.append_nil]
    exact h
  | cons i is ih =>
    have ht : t ∉ fs := fun hc => (nodup_append.1 hf.nodup).2.2 t
      (mem_append_left _ hc) t (mem_singleton_self t) rfl
    rw [flatMap_cons, ← append_assoc] at hf ⊢
    simp only [Prog.forEach, bind_eq, wp_bind, wp_look]
    rw [h.same t ht]
    by_cases hp : present ((m.ram t).entry i) = true
    · have hc : child m.ram t i = some (frameOf ((m.ram t).entry i)) := by rw [child, if_pos hp]
      rw [if_pos hp]
      rw [hc, Option.map_some, Option.getD_some] at hf ⊢
      exact wp_mono (hbody _ fs m' h hf.of_append.of_append) fun _ m'' h' => ih h' hf
    · have hc : child m.ram t i = none := by rw [child, if_neg hp]
      rw [if_neg hp]
      rw [hc, Option.map_none, Option.getD_none, List.append_nil] at hf ⊢
      exact ih h hf

theorem wp_freeLevel (n : ℕ) : ∀ t fs m', Freed m l fs m' → Freeable m l (fs ++ frames m.ram n t) →
    (freeLevel n t).wp E (fun _ m'' => Freed m l (fs ++ frames m.ram n t) m'') m' := by
  induction n with
  | zero => exact fun t fs m' h hf => wp_kfree_freed h hf fun m'' h' => h'
  | succ n ih =>
    intro t fs m' h hf
    rw [frames, ← append_assoc] at hf ⊢
    rw [freeLevel, bind_eq, wp_bind]
    generalize List.range NPDENTRIES = is at hf ⊢
    exact wp_mono (wp_freeEntries ih h hf) fun _ m'' h' => wp_kfree_freed h' hf
      fun _ h'' => h''

attribute [local irreducible] frames freeLevel in
theorem wp_freevm_freed (hc : Chain m.ram m.freelist l) (hf : Freeable m l (treeFrames m.ram r)) :
    (freevm (some r)).wp E (fun _ m' => Freed m l (treeFrames m.ram r) m') m := by
  rw [treeFrames] at hf ⊢
  rw [freevm, bind_eq, wp_bind]
  have h : Freed m l [] m := ⟨hc, fun _ _ => rfl, rfl, rfl, rfl⟩
  generalize List.range (NPDENTRIES / 2) = is at hf ⊢
  have hlevel := wp_freeLevel (m := m) (l := l) (E := E) 3
  have hloop := @wp_freeEntries m m l [] r 3 E is (freeLevel 3) hlevel h
  rw [nil_append] at hloop
  exact wp_mono (hloop hf) fun _ m' h' => wp_kfree_freed h' hf fun _ h'' => h''

/-! ## The frames of a tree -/

/-- Paths from a table `n` levels above the user pages. -/
def Below (n : ℕ) (q : List ℕ) : Prop := q.length ≤ n ∧ ∀ i ∈ q, i < 512

theorem below_cons : Below (n + 1) (i :: q) ↔ i < 512 ∧ Below n q := by
  simp only [Below, length_cons, Nat.add_le_add_iff_right, mem_cons, forall_eq_or_imp]
  tauto

theorem below_nil : Below n [] := ⟨Nat.zero_le n, by simp⟩

theorem mem_frames : f ∈ frames ram n t ↔ ∃ q, Below n q ∧ node ram t q = some f := by
  induction n generalizing t with
  | zero =>
    rw [frames, mem_singleton]
    constructor
    · rintro rfl
      exact ⟨[], below_nil, rfl⟩
    · rintro ⟨q, hq, hn⟩
      rw [length_eq_zero_iff.1 (Nat.le_zero.1 hq.1)] at hn
      cases hn
      rfl
  | succ n ih =>
    rw [frames, mem_append, mem_flatMap, mem_singleton]
    constructor
    · rintro (⟨i, hi, hf⟩ | rfl)
      · cases hc : child ram t i with
        | none => simp [hc] at hf
        | some c =>
          rw [hc, Option.map_some, Option.getD_some, ih] at hf
          obtain ⟨q, hq, hn⟩ := hf
          refine ⟨i :: q, below_cons.2 ⟨mem_range.1 hi, hq⟩, ?_⟩
          rw [node, follow_cons, hc]
          exact hn
      · exact ⟨[], below_nil, rfl⟩
    · rintro ⟨q, hq, hn⟩
      cases q with
      | nil =>
        cases hn
        exact .inr rfl
      | cons i q =>
        rw [node, follow_cons] at hn
        cases hc : child ram t i with
        | none =>
          rw [hc] at hn
          cases hn
        | some c =>
          rw [hc, Option.bind_some] at hn
          refine .inl ⟨i, mem_range.2 (below_cons.1 hq).1, ?_⟩
          rw [hc, Option.map_some, Option.getD_some, ih]
          exact ⟨q, (below_cons.1 hq).2, hn⟩

/-- The frames of a row of subtrees are distinct if different paths lead to them. -/
theorem nodup_entries {is : List ℕ} (his : is.Nodup)
    (hone : ∀ i ∈ is, ∀ c, child ram t i = some c → (frames ram n c).Nodup)
    (hinj : ∀ i ∈ is, ∀ j ∈ is, ∀ q q' f, Below n q → Below n q' → node ram t (i :: q) = some f →
      node ram t (j :: q') = some f → i :: q = j :: q')
    (hroot : ∀ i ∈ is, ∀ q, Below n q → node ram t (i :: q) ≠ some t) :
    (is.flatMap (fun i => ((child ram t i).map (frames ram n)).getD []) ++ [t]).Nodup := by
  have hmem : ∀ i f, f ∈ ((child ram t i).map (frames ram n)).getD [] →
      ∃ q, Below n q ∧ node ram t (i :: q) = some f := by
    intro i f hf
    cases hc : child ram t i with
    | none => simp [hc] at hf
    | some c =>
      rw [hc, Option.map_some, Option.getD_some, mem_frames] at hf
      obtain ⟨q, hq, hn⟩ := hf
      refine ⟨q, hq, ?_⟩
      rw [node, follow_cons, hc]
      exact hn
  refine nodup_append.2 ⟨nodup_flatMap.2 ⟨fun i hi => ?_, ?_⟩, nodup_singleton t, ?_⟩
  · cases hc : child ram t i with
    | none => exact nodup_nil
    | some c => exact hone i hi c hc
  · refine List.Pairwise.imp_of_mem ?_ his
    intro i j hi hj hij f hf hf'
    obtain ⟨q, hq, hn⟩ := hmem i f hf
    obtain ⟨q', hq', hn'⟩ := hmem j f hf'
    exact hij (List.cons.inj (hinj i hi j hj q q' f hq hq' hn hn')).1
  · rintro f hf g hg rfl
    rw [mem_singleton] at hg
    subst hg
    obtain ⟨i, hi, hf⟩ := mem_flatMap.1 hf
    obtain ⟨q, hq, hn⟩ := hmem i _ hf
    exact hroot i hi q hq hn

theorem nodup_frames (h : ∀ q q' f, Below n q → Below n q' → node ram t q = some f →
    node ram t q' = some f → q = q') : (frames ram n t).Nodup := by
  induction n generalizing t with
  | zero => exact nodup_singleton t
  | succ n ih =>
    refine nodup_entries nodup_range (fun i hi c hc => ih fun q q' f hq hq' hn hn' => ?_)
      (fun i hi j hj q q' f hq hq' hn hn' => h _ _ f (below_cons.2 ⟨mem_range.1 hi, hq⟩)
        (below_cons.2 ⟨mem_range.1 hj, hq'⟩) hn hn') fun i hi q hq hn => ?_
    · have hstep : ∀ q, node ram t (i :: q) = node ram c q := by
        intro q
        rw [node, follow_cons, hc]
        rfl
      exact (List.cons.inj (h (i :: q) (i :: q') f (below_cons.2 ⟨mem_range.1 hi, hq⟩)
        (below_cons.2 ⟨mem_range.1 hi, hq'⟩) (by rw [hstep, hn]) (by rw [hstep, hn']))).2
    · exact cons_ne_nil i q (h (i :: q) [] t (below_cons.2 ⟨mem_range.1 hi, hq⟩)
        below_nil hn rfl)

theorem user_cons : User (i :: q) ↔ i < 256 ∧ Below 3 q := by
  constructor
  · intro h
    refine ⟨h.head i rfl, ?_, fun j hj => h.lt j (mem_cons_of_mem i hj)⟩
    have := h.length
    rw [length_cons] at this
    omega
  · rintro ⟨hi, hq⟩
    refine ⟨?_, ?_, ?_⟩
    · have := hq.1
      rw [length_cons]
      omega
    · intro j hj
      rcases mem_cons.1 hj with rfl | hj
      · omega
      · exact hq.2 j hj
    · intro j hj
      cases hj
      exact hi

theorem mem_treeFrames : f ∈ treeFrames ram r ↔ ∃ p, User p ∧ node ram r p = some f := by
  rw [treeFrames, mem_append, mem_flatMap, mem_singleton]
  constructor
  · rintro (⟨i, hi, hf⟩ | rfl)
    · cases hc : child ram r i with
      | none => simp [hc] at hf
      | some c =>
        rw [hc, Option.map_some, Option.getD_some, mem_frames] at hf
        obtain ⟨q, hq, hn⟩ := hf
        refine ⟨i :: q, user_cons.2 ⟨mem_range.1 hi, hq⟩, ?_⟩
        rw [node, follow_cons, hc]
        exact hn
    · exact ⟨[], table_nil.1, rfl⟩
  · rintro ⟨q, hq, hn⟩
    cases q with
    | nil =>
      cases hn
      exact .inr rfl
    | cons i q =>
      obtain ⟨hi, hq⟩ := user_cons.1 hq
      rw [node, follow_cons] at hn
      cases hc : child ram r i with
      | none =>
        rw [hc] at hn
        cases hn
      | some c =>
        rw [hc, Option.bind_some] at hn
        refine .inl ⟨i, mem_range.2 hi, ?_⟩
        rw [hc, Option.map_some, Option.getD_some, mem_frames]
        exact ⟨q, hq, hn⟩

/-- The frames of the user half are distinct if different paths lead to them. -/
theorem nodup_treeFrames (h : ∀ p q f, User p → User q → node ram r p = some f →
    node ram r q = some f → p = q) :
    (treeFrames ram r).Nodup := by
  refine nodup_entries nodup_range (fun i hi c hc => nodup_frames fun q q' f hq hq' hn hn' =>
    ?_)
    (fun i hi j hj q q' f hq hq' hn hn' => h _ _ f (user_cons.2 ⟨mem_range.1 hi, hq⟩)
      (user_cons.2 ⟨mem_range.1 hj, hq'⟩) hn hn') fun i hi q hq hn => ?_
  · have hstep : ∀ q, node ram r (i :: q) = node ram c q := by
      intro q
      rw [node, follow_cons, hc]
      rfl
    exact (List.cons.inj (h _ _ f (user_cons.2 ⟨mem_range.1 hi, hq⟩)
      (user_cons.2 ⟨mem_range.1 hi, hq'⟩) (by rw [hstep, hn]) (by rw [hstep, hn']))).2
  · exact cons_ne_nil i q (h _ _ r (user_cons.2 ⟨mem_range.1 hi, hq⟩) table_nil.1 hn rfl)

/-- The frames of a tree can be freed. -/
theorem Owned.freeable (h : Owned m l T S) (hk : T k = some r) :
    Freeable m l (treeFrames m.ram r) where
  nodup := nodup_treeFrames fun _ _ _ hp hq => h.path_inj hk hp hq
  given f hf := by
    obtain ⟨p, hp, hn⟩ := mem_treeFrames.1 hf
    exact h.given hk hp hn
  apart f hf := by
    obtain ⟨p, hp, hn⟩ := mem_treeFrames.1 hf
    exact h.not_free hk hp hn
  list := h.free_lt
  kernelEnd := h.kernelEnd

variable [DecidableEq κ] [DecidableEq σ]

omit [DecidableEq σ] in
/-- Once its frames are freed, the tree is gone. -/
theorem Owned.freed (h : Owned m l T S) (hk : T k = some r)
    (hf : Freed m l (treeFrames m.ram r) m') :
    Owned m' ((treeFrames m.ram r).reverse ++ l) (update T k none) S where
  chain := hf.chain
  ledger := by
    have hgiven : m'.Given = m.Given := by
      funext f
      rw [Mem.Given, Mem.Given, hf.rest.1]
    rw [hgiven]
    classical
    refine h.ledger.giveAll (X := fun x : Spot κ σ => ∃ p, x = .tree k p)
      (nodup_reverse.2 (h.freeable hk).nodup) ?_ ?_
    · intro f
      rw [mem_reverse, mem_treeFrames]
      constructor
      · rintro ⟨p, hp, hn⟩
        exact ⟨.tree k p, ⟨p, rfl⟩, by rw [spots_tree hk hp, hn]⟩
      · rintro ⟨_, ⟨p, rfl⟩, hn⟩
        by_cases hp : User p
        · exact ⟨p, hp, by rw [← spots_tree hk hp (S := S), hn]⟩
        · rw [spots, if_neg hp] at hn
          cases hn
    · rintro (⟨k', p⟩ | x)
      · by_cases hkk : k' = k
        · subst hkk
          rw [if_pos ⟨p, rfl⟩, spots, update_self, Option.bind_none, ite_self]
        · rw [if_neg (by rintro ⟨_, ⟨⟩⟩; exact hkk rfl), spots, spots, update_of_ne hkk]
          split_ifs with hp
          · cases hk' : T k' with
            | none => rw [Option.bind_none, Option.bind_none]
            | some r' =>
              rw [Option.bind_some, Option.bind_some]
              refine node_congr (fun q t hq ht => hf.same t fun hm => ?_) hp
              obtain ⟨q', hq', ht'⟩ := mem_treeFrames.1 hm
              exact hkk (h.tree_inj hk' hk hq.1 hq' ht ht')
          · rfl
      · rw [if_neg (by rintro ⟨_, ⟨⟩⟩)]
        rfl
  kernelEnd := by
    rw [hf.rest.1]
    exact h.kernelEnd

omit [DecidableEq σ] in
theorem wp_freevm {Q : Unit → Mem → Prop} (h : Owned m l T S) (hk : T k = some r)
    (hQ : ∀ m', Freed m l (treeFrames m.ram r) m' →
      Owned m' ((treeFrames m.ram r).reverse ++ l) (update T k none) S → Q () m') :
    (freevm (some r)).wp E Q m :=
  wp_mono (wp_freevm_freed h.chain (h.freeable hk)) fun _ m' hf => hQ m' hf (h.freed hk hf)

/-! ## Shrinking -/

/-- The pages `vs` are no longer mapped. -/
structure Released (r : ℕ) (vs : List ℕ) (m m' : Mem) : Prop where
  /-- Nothing is at their paths, and the other paths are as they were. -/
  node : ∀ p, User p → node m'.ram r p = if p ∈ vs.map index then none else node m.ram r p
  /-- Other pages are as they were. -/
  view : ∀ w, w < UPAGES → view m'.ram r w = if w ∈ vs then none else view m.ram r w
  /-- So are frames of others. -/
  same : ∀ g, (∀ p, User p → Mm.node m.ram r p ≠ some g) → m'.ram g = m.ram g
  /-- The rest of the state. -/
  rest : m'.kernelEnd = m.kernelEnd ∧ m'.kpdpt = m.kpdpt ∧ m'.granted = m.granted

namespace Released

omit [DecidableEq κ] [DecidableEq σ]

theorem refl : Released r [] m m where
  node _ _ := by simp
  view _ _ := by simp
  same _ _ := rfl
  rest := ⟨rfl, rfl, rfl⟩

theorem of_none (h : Mm.view m.ram r v = none) : Released r [v] m m where
  node p _ := by
    split_ifs with hp
    · rw [map_singleton, mem_singleton] at hp
      rw [hp, node_index, view_eq_none_iff.1 h, if_neg (by decide)]
    · rfl
  view w _ := by
    split_ifs with hw
    · rw [mem_singleton.1 hw, h]
    · rfl
  same _ _ := rfl
  rest := ⟨rfl, rfl, rfl⟩

theorem of_node {vs : List ℕ} (h : Released r vs m m') (hp : User p)
    (hn : Mm.node m'.ram r p = some f) : Mm.node m.ram r p = some f := by
  rw [h.node p hp] at hn
  split_ifs at hn
  exact hn

theorem table {vs : List ℕ} (h : Released r vs m m') (hp : Table p) :
    Mm.node m'.ram r p = Mm.node m.ram r p := by
  rw [h.node p hp.1, if_neg]
  intro hm
  obtain ⟨w, -, rfl⟩ := mem_map.1 hm
  exact absurd hp.2 (by simp [index])

theorem trans {vs ws : List ℕ} (h : Released r vs m m') (h' : Released r ws m' m'') :
    Released r (vs ++ ws) m m'' where
  node p hp := by
    rw [h'.node p hp, h.node p hp, map_append]
    simp only [mem_append]
    split_ifs <;> tauto
  view w hw := by
    rw [h'.view w hw, h.view w hw]
    simp only [mem_append]
    split_ifs <;> tauto
  same g hg := (h'.same g fun p hp hn => hg p hp (h.of_node hp hn)).trans (h.same g hg)
  rest := ⟨h'.rest.1.trans h.rest.1, h'.rest.2.1.trans h.rest.2.1, h'.rest.2.2.trans h.rest.2.2⟩

end Released

/-- One pass of the loop of `deallocuvm`. -/
theorem wp_deallocPage {Q : Unit → Mem → Prop} (h : Owned m l T S) (hk : T k = some r)
    (hv : v < UPAGES)
    (hQ : ∀ m' fs, Released r [v] m m' → Owned m' (fs ++ l) T S →
      fs.length = (if (view m.ram r v).isSome then 1 else 0) → Q () m') :
    (deallocPage r (v * PGSIZE)).wp E Q m := by
  have hpage : pageOf (v * PGSIZE) = v := Nat.mul_div_cancel v (by decide)
  simp only [deallocPage, bind_eq, wp_bind]
  refine wp_walkpgdir_look ?_
  rw [hpage, slot]
  cases ht : node m.ram r (tablePath v) with
  | none =>
    have hnone : view m.ram r v = none := by rw [view_eq_none_iff, pte, ht]; exact present_zero
    refine hQ m [] (Released.of_none hnone) h ?_
    rw [hnone]
    rfl
  | some t =>
    simp only [Option.map_some, wp_bind, wp_look]
    rw [← pte_of_node ht]
    by_cases hp : present (pte m.ram r v) = true
    · have hn := node_index_of_present hp
      have hgiven := h.given hk (user_index hv) hn
      rw [if_pos hp, if_neg (h.ne_zero hgiven)]
      simp only [wp_bind, wp_change]
      refine wp_kfree hgiven ?_
      have hchild : child m.ram t (v % 512) = some (frameOf (pte m.ram r v)) := by
        rw [child_of_entry (pte_of_node ht).symm, if_pos hp]
      obtain ⟨hown, hnode⟩ := h.clear hk (table_tablePath hv) rfl ht
        (index_eq v ▸ user_index hv) hchild
      have htf : t ≠ frameOf (pte m.ram r v) := fun he =>
        h.leaf_ne hk hv hp (table_tablePath hv) (he ▸ ht)
      have hram : ∀ u, u ≠ t → u ≠ frameOf (pte m.ram r v) →
          ((m.pushed (frameOf (pte m.ram r v))).setEntry t (v % 512) 0).ram u = m.ram u := by
        intro u h₁ h₂
        exact (update_of_ne h₁ _ _).trans (update_of_ne h₂ _ _)
      have hself : ((m.pushed (frameOf (pte m.ram r v))).setEntry t (v % 512) 0).ram t =
          (m.ram t).setEntry (v % 512) 0 := by
        change update _ t _ t = _
        rw [update_self]
        congr 1
        exact update_of_ne htf _ _
      have htables : ∀ q, Table q → node ((m.pushed (frameOf (pte m.ram r v))).setEntry t
          (v % 512) 0).ram r q = node m.ram r q := by
        intro q hq
        rw [hnode q hq.1, if_neg]
        rintro rfl
        exact absurd hq.2 (by simp [tablePath])
      have hpte : ∀ w, w < UPAGES → pte ((m.pushed (frameOf (pte m.ram r v))).setEntry t
          (v % 512) 0).ram r w = if w = v then 0 else pte m.ram r w := by
        intro w hw
        refine pte_setEntry htables ht
          (fun q hq hu => h.path_inj hk hq.1 (table_tablePath hv).1 hu ht)
          hself (fun q u hq hu hne => hram u hne ?_) (by decide) hv hw
        rintro rfl
        exact h.leaf_ne hk hv hp hq hu
      refine hQ _ [_] ⟨fun q hq => ?_, fun w hw => ?_, fun g hg => ?_, rfl, rfl, rfl⟩ hown ?_
      · rw [hnode q hq, ← index_eq, map_singleton]
        simp only [mem_singleton]
      · by_cases hwv : w = v
        · rw [if_pos (by rw [hwv]; exact mem_singleton_self v), view_eq_none_iff, hpte w hw,
            if_pos hwv, present_zero]
        · rw [if_neg (by rwa [mem_singleton])]
          refine view_congr_of_pte (by rw [hpte w hw, if_neg hwv]) fun hpw => hram _ ?_ ?_
          · intro he
            exact h.leaf_ne hk hw hpw (table_tablePath hv) (he ▸ ht)
          · intro he
            have hnw := node_index_of_present hpw
            rw [he] at hnw
            have hv' : v < 2 ^ 35 := hv
            have hw' : w < 2 ^ 35 := hw
            exact hwv (index_inj (by omega) (by omega)
              (h.path_inj hk (user_index hw) (user_index hv) hnw hn))
      · refine hram g ?_ ?_
        · rintro rfl
          exact hg _ (table_tablePath hv).1 ht
        · rintro rfl
          exact hg _ (user_index hv) hn
      · rw [view_of_pte rfl hp]
        rfl
    · have hnone : view m.ram r v = none := by
        rw [view_eq_none_iff]
        exact Bool.eq_false_iff.2 hp
      rw [if_neg hp]
      refine hQ m [] (Released.of_none hnone) h ?_
      rw [hnone]
      rfl

/-- How many of these pages are mapped. -/
def mappedCount (ram : ℕ → Page) (r : ℕ) (vs : List ℕ) : ℕ :=
  (vs.filter fun v => (view ram r v).isSome).length

theorem wp_deallocLoop {Q : Unit → Mem → Prop} {oldsz fuel : ℕ} (h : Owned m l T S)
    (hk : T k = some r) (hfuel : pageUp oldsz ≤ v + fuel) (hbound : pageUp oldsz ≤ UPAGES)
    (hQ : ∀ m' fs, Released r (List.range' v (pageUp oldsz - v)) m m' → Owned m' (fs ++ l) T S →
      fs.length = mappedCount m.ram r (List.range' v (pageUp oldsz - v)) → Q () m') :
    (deallocLoop r oldsz fuel (v * PGSIZE)).wp E Q m := by
  induction fuel generalizing v m l Q with
  | zero =>
    rw [show pageUp oldsz - v = 0 by omega] at hQ
    exact hQ m [] Released.refl h rfl
  | succ fuel ih =>
    by_cases hlt : v < pageUp oldsz
    · have hv : v < UPAGES := lt_of_lt_of_le hlt hbound
      have hcons : List.range' v (pageUp oldsz - v) =
          v :: List.range' (v + 1) (pageUp oldsz - (v + 1)) := by
        rw [show pageUp oldsz - v = (pageUp oldsz - (v + 1)) + 1 by omega, range'_succ]
      have hnext : v * PGSIZE + PGSIZE < 2 ^ 64 := by
        change v < 2 ^ 35 at hv
        change v * 4096 + 4096 < 2 ^ 64
        omega
      rw [hcons] at hQ
      rw [deallocLoop, if_pos (lt_pageUp_iff.1 hlt)]
      simp only [bind_eq, wp_bind]
      refine wp_deallocPage h hk hv fun m₁ fs hrel hown hlen => ?_
      rw [add64_of_lt hnext, ← Nat.succ_mul, wp_ret]
      refine ih hown (by omega) fun m₂ fs' hrel' hown' hlen' =>
        hQ m₂ (fs' ++ fs) (hrel.trans hrel') (by rwa [append_assoc]) ?_
      have hsame : mappedCount m₁.ram r (List.range' (v + 1) (pageUp oldsz - (v + 1))) =
          mappedCount m.ram r (List.range' (v + 1) (pageUp oldsz - (v + 1))) := by
        rw [mappedCount, mappedCount]
        congr 1
        refine filter_congr fun w hw => ?_
        rw [mem_range'_1] at hw
        have hne : w ∉ [v] := by
          rw [mem_singleton]
          omega
        rw [hrel.view w (by omega), if_neg hne]
      rw [length_append, hlen, hlen', hsame, mappedCount, mappedCount, filter_cons]
      split_ifs <;> simp
    · rw [show pageUp oldsz - v = 0 by omega] at hQ
      rw [deallocLoop, if_neg fun hc => hlt (lt_pageUp_iff.2 hc)]
      exact hQ m [] Released.refl h rfl

theorem pageUp_le_div_add_one (sz : ℕ) : pageUp sz ≤ sz / PGSIZE + 1 := by
  change (sz + 4095) / 4096 ≤ sz / 4096 + 1
  omega

/-- `deallocuvm` to a smaller size. -/
theorem wp_deallocuvm {Q : ℕ → Mem → Prop} {oldsz newsz : ℕ} (h : Owned m l T S) (hk : T k = some r)
    (hlt : newsz < oldsz) (hbound : pageUp oldsz ≤ UPAGES)
    (hQ : ∀ m' fs, Released r (List.range' (pageUp newsz) (pageUp oldsz - pageUp newsz)) m m' →
      Owned m' (fs ++ l) T S →
      fs.length = mappedCount m.ram r (List.range' (pageUp newsz) (pageUp oldsz - pageUp newsz)) →
      Q newsz m') :
    (deallocuvm r oldsz newsz).wp E Q m := by
  have hk' : newsz < KERNBASE := by
    change (oldsz + 4095) / 4096 ≤ 2 ^ 35 at hbound
    change newsz < 0xFFFF800000000000
    omega
  rw [deallocuvm, if_neg (by omega), PGROUNDUP_of_lt hk']
  simp only [bind_eq, ret_bind, wp_bind]
  refine wp_deallocLoop h hk ?_ hbound fun m' fs hrel hown hlen => hQ m' fs hrel hown hlen
  have := pageUp_le_div_add_one oldsz
  omega

/-! ## Making and growing an address space -/

omit [DecidableEq κ] [DecidableEq σ] in
theorem write_setEntry (m : Mem) (f i v : ℕ) (pg : Page) :
    (m.write f pg).setEntry f i v = m.write f (pg.setEntry i v) := by
  rw [Mem.setEntry, Mem.write, Mem.write, Mem.write]
  simp only [update_self, update_idem]

/-- A root table with the kernel half and no user pages. -/
def rootPage (kpdpt : ℕ) : Page := (Page.fill 0).setEntry 256 (mkEntry kpdpt (PTE_P ||| PTE_W))

omit [DecidableEq κ] [DecidableEq σ] in
theorem child_rootPage {kpdpt : ℕ} (h : ram t = rootPage kpdpt) (hi : i < 256) :
    child ram t i = none := by
  rw [child_of_entry (e := 0), if_neg (by decide)]
  rw [h, rootPage, Page.entry_setEntry_of_ne (by omega), Page.entry_fill_zero]

variable {τ : Type} {A : Allocator τ} {s : τ} {room : τ → ℕ → List ℕ → Prop} {F : List ℕ → Prop}

/-- `setupkvm`, over any allocator. -/
theorem Allocator.Grants.wp_setupkvm {Q : Option ℕ → τ → Prop} (hA : A.Grants E room F)
    (h : Owned (A.get s) l T S) (hk : T k = none) (hE : room s 1 l)
    (hnull : F l → ∀ s', A.get s' = A.get s → Q none s')
    (hQ : ∀ s' f l', Leaves room s l s' l' → l = f :: l' →
      A.get s' = (A.get s).popped.write f (rootPage (A.get s).kpdpt) →
      Owned (A.get s') l' (update T k (some f)) S → Q (some f) s') : A.setupkvm.wp
        E Q s := by
  simp only [Allocator.setupkvm, bind_eq, wp_bind]
  refine hA.wp_kalloc h.chain hE hnull fun s' f l' hl hs' hleft => ?_
  subst hl
  simp only [wp_bind, wp_on_change, get_put, put_put, Prog.pure_eq, wp_ret, write_setEntry, hs']
  refine hQ _ f l' (hleft.put hA _) rfl (get_put _ _) ?_
  rw [get_put]
  exact (h.hold _).root hk fun i hi => child_rootPage (update_self _ _ _) hi

theorem wp_setupkvm {Q : Option ℕ → Mem → Prop} (h : Owned m l T S) (hk : T k = none)
    (hE : Spare E 1 l)
    (hQ : ∀ f l', l = f :: l' →
      Owned (m.popped.write f (rootPage m.kpdpt)) l' (update T k (some f)) S →
      Q (some f) (m.popped.write f (rootPage m.kpdpt))) : setupkvm.wp E Q m := by
  refine (kernel_grants E).wp_setupkvm (s := m) h hk hE False.elim fun s' f l' _ hl hs' hown => ?_
  have hs'' : s' = m.popped.write f (rootPage m.kpdpt) := hs'
  subst hs''
  exact hQ f l' hl hown

omit [DecidableEq κ] [DecidableEq σ] in
/-- A new root has no tables below it. -/
theorem node_rootPage {kpdpt : ℕ} (h : ram r = rootPage kpdpt) (hp : User p) :
    node ram r p = if p = [] then some r else none := by
  cases p with
  | nil => rfl
  | cons i p =>
    rw [if_neg (cons_ne_nil i p), node, follow_cons, child_rootPage h (hp.head i rfl),
      Option.bind_none]

omit [DecidableEq κ] [DecidableEq σ] in
theorem view_rootPage {kpdpt : ℕ} (h : ram r = rootPage kpdpt) (hv : v < UPAGES) :
    view ram r v = none := by
  rw [view_eq_none_iff, pte, node_rootPage h (table_tablePath hv).1, if_neg (by simp [tablePath])]
  exact present_zero

/-- `allocuvm` to a larger size, over any allocator. -/
theorem Allocator.Grants.wp_allocuvm {Q : ℕ → τ → Prop} {oldsz newsz : ℕ} (hA : A.Grants E room F)
    (h : Owned (A.get s) l T S) (hk : T k = some r) (hle : oldsz ≤ newsz)
      (hbound : pageUp newsz ≤ UPAGES)
    (hnone : ∀ w, pageUp oldsz ≤ w → w < pageUp newsz → view (A.get s).ram r w = none)
    (hE : room s (cost (A.get s).ram r (List.range' (pageUp oldsz) (pageUp newsz - pageUp oldsz)))
      l)
    (hstop : ∀ s' n used fs o l', F l' → pageUp oldsz + n < pageUp newsz → l = used ++ l' →
      Owned (A.get s') l' T (hand S o) →
      Refused r freshPage (List.range' (pageUp oldsz) n) (pageUp oldsz + n) used fs
        (fs ++ o.toList) o
        (A.get s) (A.get s') → (A.undo r oldsz newsz o).wp E Q s')
    (hQ : ∀ s' used fs l', Leaves room s l s' l' → l = used ++ l' →
      used.length = cost (A.get s).ram r
        (List.range' (pageUp oldsz) (pageUp newsz - pageUp oldsz)) →
      Owned (A.get s') l' T S →
      Allocated r freshPage (List.range' (pageUp oldsz) (pageUp newsz - pageUp oldsz)) used fs fs
        (A.get s) (A.get s') → Q newsz s') :
    (A.allocuvm r oldsz newsz).wp E Q s := by
  have hk' : newsz < KERNBASE := by
    change (newsz + 4095) / 4096 ≤ 2 ^ 35 at hbound
    change newsz < 0xFFFF800000000000
    omega
  rw [Allocator.allocuvm, if_neg (not_le.2 hk'), if_neg (by omega),
    PGROUNDUP_of_lt (lt_of_le_of_lt hle hk')]
  simp only [bind_eq, ret_bind]
  refine wp_allocLoop hA h hk ?_ hbound (fun w hw hw' => view_eq_none_iff.1 (hnone w hw hw'))
    hE hstop hQ
  have := pageUp_le_div_add_one newsz
  omega

theorem wp_allocuvm {Q : ℕ → Mem → Prop} {oldsz newsz : ℕ} (h : Owned m l T S) (hk : T k = some r)
    (hle : oldsz ≤ newsz) (hbound : pageUp newsz ≤ UPAGES)
    (hnone : ∀ w, pageUp oldsz ≤ w → w < pageUp newsz → view m.ram r w = none)
    (hE : Spare E (cost m.ram r (List.range' (pageUp oldsz) (pageUp newsz - pageUp oldsz))) l)
    (hQ : ∀ m' used fs l', l = used ++ l' →
      used.length = cost m.ram r (List.range' (pageUp oldsz) (pageUp newsz - pageUp oldsz)) →
      Owned m' l' T S →
      Allocated r freshPage (List.range' (pageUp oldsz) (pageUp newsz - pageUp oldsz)) used
        fs fs m m' →
      Q newsz m') :
    (allocuvm r oldsz newsz).wp E Q m := by
  rw [← kernel_allocuvm]
  exact (kernel_grants E).wp_allocuvm (s := m) h hk hle hbound hnone hE
    (fun _ _ _ _ _ _ => False.elim) fun m' used fs l' _ => hQ m' used fs l'

/-- `allocuvm` to a size there are not enough frames for. -/
theorem wp_allocuvm_out {Q : ℕ → Mem → Prop} {oldsz newsz : ℕ} (h : Owned m l T S)
    (hk : T k = some r) (hE : E "Out of memory!") (hk' : newsz < KERNBASE)
    (hlen : pageUp oldsz + l.length < pageUp newsz) (hU : pageUp oldsz + l.length < UPAGES)
    (hnone : ∀ w, pageUp oldsz ≤ w → w < UPAGES → view m.ram r w = none) :
    (allocuvm r oldsz newsz).wp E Q m := by
  have hle : oldsz ≤ newsz := by
    have hlt : (oldsz + 4095) / 4096 < (newsz + 4095) / 4096 :=
      lt_of_le_of_lt (Nat.le_add_right _ _) hlen
    omega
  rw [allocuvm, if_neg (not_le.2 hk'), if_neg (by omega), PGROUNDUP_of_lt (lt_of_le_of_lt hle hk')]
  simp only [bind_eq, ret_bind]
  refine wp_allocLoop_out h hk hE ?_ hlen hU fun w hw hw' => view_eq_none_iff.1 (hnone w hw hw')
  have := pageUp_le_div_add_one newsz
  omega

/-! ## Sizes -/

/-- The page table maps exactly the pages of `[PGSIZE, PGROUNDUP(sz))`. -/
def Exactly (ram : ℕ → Page) (r sz : ℕ) : Prop :=
  ∀ v, (v < UPAGES ∧ (view ram r v).isSome) ↔ 1 ≤ v ∧ v < pageUp sz

section Sizes

omit [DecidableEq κ] [DecidableEq σ]

variable {sz : ℕ}

theorem Exactly.isSome (h : Exactly ram r sz) (h1 : 1 ≤ v) (hv : v < pageUp sz) :
    (view ram r v).isSome :=
  ((h v).2 ⟨h1, hv⟩).2

theorem Exactly.lt (h : Exactly ram r sz) (h1 : 1 ≤ v) (hv : v < pageUp sz) : v < UPAGES :=
  ((h v).2 ⟨h1, hv⟩).1

theorem Exactly.eq_none (h : Exactly ram r sz) (hv : v < UPAGES) (hout : ¬(1 ≤ v ∧ v < pageUp sz)) :
    view ram r v = none := by
  rw [← Option.not_isSome_iff_eq_none]
  exact fun hsome => hout ((h v).1 ⟨hv, hsome⟩)

theorem Exactly.beyond (h : Exactly ram r sz) (hv : pageUp sz ≤ v) (hlt : v < UPAGES) :
    view ram r v = none :=
  h.eq_none hlt fun hin => absurd hin.2 (not_lt.2 hv)

/-- Mapped pages have different frames, so there are no more of them than frames. -/
theorem mapped_le {a b : ℕ} (h : Owned m l T S) (hk : T k = some r)
    (hall : ∀ v, a ≤ v → v < b → v < UPAGES ∧ (view m.ram r v).isSome) :
      b - a ≤ PHYSTOP / PGSIZE := by
  have hnode : ∀ v, a ≤ v → v < b → v < UPAGES ∧
    node m.ram r (index v) = some (frameOf (pte m.ram r v)) := by
    intro v hav hvb
    obtain ⟨hv, hsome⟩ := hall v hav hvb
    refine ⟨hv, node_index_of_present ?_⟩
    by_contra hp
    rw [view_eq_none_iff.2 (Bool.not_eq_true _ ▸ hp)] at hsome
    cases hsome
  have hcard := Finset.card_le_card_of_injOn (s := Finset.Ico a b)
    (t := Finset.range (PHYSTOP / PGSIZE))
    (fun v => frameOf (pte m.ram r v)) (fun v hv => ?_) (fun v hv w hw he => ?_)
  · rwa [Nat.card_Ico, Finset.card_range] at hcard
  · obtain ⟨hav, hvb⟩ := Finset.mem_Ico.1 hv
    obtain ⟨hlt, hn⟩ := hnode v hav hvb
    exact Finset.mem_coe.2 (Finset.mem_range.2 (h.given hk (user_index hlt) hn).2)
  · obtain ⟨hav, hvb⟩ := Finset.mem_Ico.1 hv
    obtain ⟨haw, hwb⟩ := Finset.mem_Ico.1 hw
    obtain ⟨hlt, hn⟩ := hnode v hav hvb
    obtain ⟨hlt', hn'⟩ := hnode w haw hwb
    have he' : frameOf (pte m.ram r v) = frameOf (pte m.ram r w) := he
    rw [← he'] at hn'
    exact index_inj (hlt.trans (by decide)) (hlt'.trans (by decide))
      (h.path_inj hk (user_index hlt) (user_index hlt') hn hn')

/-- The size of a process is bounded by the memory there is. -/
theorem Exactly.pageUp_le (hmaps : Exactly m.ram r sz) (h : Owned m l T S) (hk : T k = some r) :
    pageUp sz ≤ 57345 := by
  have hle : pageUp sz - 1 ≤ 57344 := mapped_le h hk fun v h1 hv => (hmaps v).2 ⟨h1, hv⟩
  omega

theorem Exactly.sz_lt (hmaps : Exactly m.ram r sz) (h : Owned m l T S) (hk : T k = some r) :
    sz < 2 ^ 28 := by
  have hle := hmaps.pageUp_le h hk
  change (sz + 4095) / 4096 ≤ 57345 at hle
  omega

theorem pageUp_mono {a b : ℕ} (h : a ≤ b) : pageUp a ≤ pageUp b :=
  Nat.div_le_div_right (by omega)

theorem pageUp_zero : pageUp 0 = 0 := by decide

theorem pageUp_pos (h : 0 < sz) : 0 < pageUp sz := by
  change 0 < (sz + 4095) / 4096
  omega

/-- The pages between two bounds. -/
theorem mem_pages (a b : ℕ) : w ∈ List.range' a (b - a) ↔ a ≤ w ∧ w < b := by
  rw [mem_range'_1]
  omega

/-- The pages that are not released keep their frames and their view. -/
theorem Released.unchanged {vs : List ℕ} (hr : Released r vs m m') (hvs : ∀ v ∈ vs, v < UPAGES)
    (hw : w < UPAGES) (hnot : w ∉ vs) : Unchanged m m' r w := by
  refine ⟨?_, by rw [hr.view w hw, if_neg hnot]⟩
  rw [hr.node _ (user_index hw), if_neg]
  intro hin
  obtain ⟨x, hx, he⟩ := mem_map.1 hin
  exact hnot (index_inj ((hvs x hx).trans (by decide)) (hw.trans (by decide)) he ▸ hx)

end Sizes

end Xv6.Mm
