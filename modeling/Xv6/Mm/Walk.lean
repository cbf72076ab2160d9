import Xv6.Mm.Grant
import Xv6.Mm.Tree

/-!
# Walking and filling a page table

What `walkpgdir`, `mappages` and `allocuvm` do to a tree and how many frames they take.

* `Extends` — tables added along some paths, entries changed for some pages only.
* `missing`, `cost` — the tables that pages lack, and the frames `allocuvm` takes for them.
* `Allocated` — pages that have got frames.
* `wp_walkpgdir`, `wp_mappages`, `wp_allocuvm` — the calls.
-/

namespace Xv6.Mm

open Lib Prog List Function

variable {κ σ : Type} {T : κ → Option ℕ} {S : σ → Option ℕ} {k : κ} {m m' m'' : Mem}
  {l l' used used' fs : List ℕ} {r t i f v w va : ℕ} {p q : List ℕ} {P P' : List ℕ → Prop}
  {D D' : ℕ → Prop} {E : String → Prop}

/-- The walk without allocation reads the tree. -/
theorem wp_nextTable_look {Q : Option ℕ → Mem → Prop} (hQ : Q (child m.ram t i) m) :
    (nextTable false t i).wp E Q m := by
  simp only [nextTable, bind_eq, wp_bind, wp_look]
  rw [child] at hQ
  by_cases h : present ((m.ram t).entry i) = true
  · rw [if_pos h] at hQ ⊢
    exact hQ
  · rw [if_neg h] at hQ ⊢
    exact hQ

/-- The slot of a page's entry. -/
def slot (ram : ℕ → Page) (r v : ℕ) : Option (ℕ × ℕ) :=
  (node ram r (tablePath v)).map fun t => (t, v % 512)

theorem wp_walkpgdir_look {Q : Option (ℕ × ℕ) → Mem → Prop} (hQ : Q (slot m.ram r (pageOf va)) m) :
    (walkpgdir r va false).wp E Q m := by
  have hidx : [PMX va, PDPX va, PDX va] = tablePath (pageOf va) ∧ PTX va = pageOf va % 512 := by
    have h := (index_pageOf va).symm.trans (index_eq _)
    simp only [tablePath, cons_append, nil_append, List.cons.injEq, and_true] at h ⊢
    exact ⟨⟨h.1, h.2.1, h.2.2.1⟩, h.2.2.2⟩
  rw [slot, ← hidx.1, ← hidx.2, node, follow_cons] at hQ
  simp only [walkpgdir, bind_eq, wp_bind]
  refine wp_nextTable_look ?_
  cases h₁ : child m.ram r (PMX va) with
  | none =>
    rw [h₁] at hQ
    exact hQ
  | some pdp =>
    rw [h₁, Option.bind_some, follow_cons] at hQ
    simp only [wp_bind]
    refine wp_nextTable_look ?_
    cases h₂ : child m.ram pdp (PDPX va) with
    | none =>
      rw [h₂] at hQ
      exact hQ
    | some pd =>
      rw [h₂, Option.bind_some, follow_cons] at hQ
      simp only [wp_bind]
      refine wp_nextTable_look ?_
      cases h₃ : child m.ram pd (PDX va) with
      | none =>
        rw [h₃] at hQ
        exact hQ
      | some pgtab =>
        rw [h₃, Option.bind_some, follow_nil] at hQ
        exact hQ

/-! ## Growing -/

/-- The tree at `r` may have got tables at the paths `P`, made of frames `used`, and other
entries for the pages `D`; other frames are as they were. -/
structure Extends (r : ℕ) (P : List ℕ → Prop) (D : ℕ → Prop) (used : List ℕ) (m m' : Mem) :
    Prop where
  /-- The tables stay. -/
  keep : ∀ p t, Table p → node m.ram r p = some t → node m'.ram r p = some t
  /-- New ones are where they should be. -/
  new : ∀ p t, Table p → node m'.ram r p = some t → node m.ram r p = some t ∨ t ∈ used ∧ P p
  /-- They are all there. -/
  made : ∀ p, Table p → P p → (node m'.ram r p).isSome
  /-- Other pages keep their entries. -/
  pte : ∀ w, w < UPAGES → ¬D w → pte m'.ram r w = pte m.ram r w
  /-- So does the kernel half. -/
  upper : ∀ i, 256 ≤ i → (m'.ram r).entry i = (m.ram r).entry i
  /-- Other frames keep their contents. -/
  same : ∀ g, g ∉ used → (∀ p, Table p → node m.ram r p ≠ some g) → m'.ram g = m.ram g
  /-- The rest of the state. -/
  rest : m'.kernelEnd = m.kernelEnd ∧ m'.kpdpt = m.kpdpt

namespace Extends

theorem isSome_iff (h : Extends r P D used m m') (hp : Table p) :
    (node m'.ram r p).isSome ↔ (node m.ram r p).isSome ∨ P p := by
  constructor
  · intro hs
    obtain ⟨t, ht⟩ := Option.isSome_iff_exists.1 hs
    rcases h.new p t hp ht with ht' | ht'
    · exact .inl (by rw [ht']; rfl)
    · exact .inr ht'.2
  · rintro (hs | hP)
    · obtain ⟨t, ht⟩ := Option.isSome_iff_exists.1 hs
      rw [h.keep p t hp ht]
      rfl
    · exact h.made p hp hP

theorem refl (hP : ∀ p, Table p → P p → (node m.ram r p).isSome) : Extends r P D [] m m where
  keep _ _ _ h := h
  new _ _ _ h := Or.inl h
  made := hP
  pte _ _ _ := rfl
  upper _ _ := rfl
  same _ _ _ := rfl
  rest := ⟨rfl, rfl⟩

theorem trans (h : Extends r P D used m m') (h' : Extends r P' D' used' m' m'') :
    Extends r (fun p => P p ∨ P' p) (fun w => D w ∨ D' w) (used ++ used') m m'' where
  keep p t hp ht := h'.keep p t hp (h.keep p t hp ht)
  new p t hp ht := by
    rcases h'.new p t hp ht with ht | ⟨ht, hP⟩
    · rcases h.new p t hp ht with ht | ⟨ht, hP⟩
      · exact .inl ht
      · exact .inr ⟨mem_append_left used' ht, Or.inl hP⟩
    · exact .inr ⟨mem_append_right used ht, Or.inr hP⟩
  made p hp hP := (h'.isSome_iff hp).2 (hP.imp_left (h.made p hp))
  pte w hw hD := (h'.pte w hw fun hc => hD (Or.inr hc)).trans (h.pte w hw fun hc => hD (Or.inl hc))
  upper i hi := (h'.upper i hi).trans (h.upper i hi)
  same g hg hnot := by
    rw [mem_append, not_or] at hg
    refine (h'.same g hg.2 fun p hp hu => ?_).trans (h.same g hg.1 hnot)
    rcases h.new p g hp hu with hu | ⟨hu, -⟩
    · exact hnot p hp hu
    · exact hg.1 hu
  rest := ⟨h'.rest.1.trans h.rest.1, h'.rest.2.trans h.rest.2⟩

theorem congr (h : Extends r P D used m m') (hP : ∀ p, P p ↔ P' p) (hD : ∀ w, D w ↔ D' w) :
    Extends r P' D' used m m' := by
  have hP' : P = P' := funext fun p => propext (hP p)
  have hD' : D = D' := funext fun w => propext (hD w)
  exact hP' ▸ hD' ▸ h

end Extends

/-- A new, empty table has no entries: the pages keep theirs. -/
theorem pte_insert {ram ram' : ℕ → Page} {f : ℕ}
    (hnode : ∀ q, Table q → node ram' r q = if q = p then some f else node ram r q)
    (hnone : node ram r p = none) (hzero : ram' f = Page.fill 0)
    (hentry : ∀ q t, Table q → node ram r q = some t → q.length = 3 →
      ∀ i, (ram' t).entry i = (ram t).entry i) (hw : w < UPAGES) :
    pte ram' r w = pte ram r w := by
  rw [pte, pte, hnode _ (table_tablePath hw)]
  by_cases he : tablePath w = p
  · rw [if_pos he, he, hnone]
    change (ram' f).entry (w % 512) = 0
    rw [hzero, Page.entry_fill_zero]
  · rw [if_neg he]
    cases ht : node ram r (tablePath w) with
    | none => rfl
    | some t => exact hentry _ t (table_tablePath hw) ht rfl _

variable [DecidableEq κ] [DecidableEq σ]

variable {τ : Type} {A : Allocator τ} {s : τ} {room : τ → ℕ → List ℕ → Prop} {F : List ℕ → Prop}

/-- A new table is hung under an entry of `t`. -/
theorem Owned.addTable (h : Owned m (f :: l) T S) (hk : T k = some r) (ht : node m.ram r p = some t)
    (hpi : Table (p ++ [i])) (hnone : node m.ram r (p ++ [i]) = none)
    (hm' : m' = (m.popped.write f (Page.fill 0)).setEntry t i
      (mkEntry f (PTE_P ||| PTE_W ||| PTE_U))) :
    Owned m' l T S ∧ Extends r (fun q => q = p ++ [i]) (fun _ => False) [f] m m' ∧
      m'.granted = m.granted ∧ node m'.ram r (p ++ [i]) = some f := by
  subst hm'
  have hp : Table p := hpi.of_append
  have hnode : node m.ram r (p ++ [i]) = child m.ram t i := follow_concat ht
  have hc : child m.ram t i = none := hnode.symm.trans hnone
  have h₁ := h.hold (Page.fill 0)
  have hself : (m.popped.write f (Page.fill 0)).ram f = Page.fill 0 := update_self _ _ _
  have hother : ∀ u, u ≠ f → (m.popped.write f (Page.fill 0)).ram u = m.ram u := fun u hu =>
    update_of_ne hu _ _
  have hsame : ∀ q u, User q → node m.ram r q = some u → u ≠ f := by
    rintro q u hq hu rfl
    exact h.not_free hk hq hu mem_cons_self
  have hnode₁ : ∀ q, User q → node (m.popped.write f (Page.fill 0)).ram r q = node m.ram r q :=
    fun q hq => node_write hother (fun p hp hu => hsame p f hp.1 hu rfl) hq
  have htf : t ≠ f := hsame p t hp.1 ht
  obtain ⟨h₂, hnode₂⟩ := h₁.insert hk hp (by rw [hnode₁ p hp.1, ht]) hpi.1
    (by rw [show child _ t i = child m.ram t i from child_congr (by rw [hother t htf]), hc])
    (show PTE_P ||| PTE_W ||| PTE_U < PGSIZE by decide) (by decide) (fun _ => hself)
  have hram₂ : ∀ u, u ≠ t → ((m.popped.write f (Page.fill 0)).setEntry t i
      (mkEntry f (PTE_P ||| PTE_W ||| PTE_U))).ram u = (m.popped.write f (Page.fill 0)).ram u :=
    fun u hu => update_of_ne hu _ _
  have hself₂ :
    ((m.popped.write f (Page.fill 0)).setEntry t i (mkEntry f (PTE_P ||| PTE_W ||| PTE_U))).ram t =
      (m.ram t).setEntry i (mkEntry f (PTE_P ||| PTE_W ||| PTE_U)) := by
    rw [← hother t htf]
    exact update_self _ _ _
  have hnode' : ∀ q, User q → node ((m.popped.write f (Page.fill 0)).setEntry t i
      (mkEntry f (PTE_P ||| PTE_W ||| PTE_U))).ram r q =
      if q = p ++ [i] then some f else node m.ram r q := by
    intro q hq
    rw [hnode₂ q hq, hnode₁ q hq]
  have hlen : p.length < 3 := by
    have := hpi.2
    rw [length_append, length_singleton] at this
    omega
  refine ⟨h₂, ⟨?_, ?_, ?_, ?_, ?_, ?_, rfl, rfl⟩, rfl, ?_⟩
  · intro q u hq hu
    rw [hnode' q hq.1, if_neg, hu]
    rintro rfl
    rw [hnode, hc] at hu
    cases hu
  · intro q u hq hu
    rw [hnode' q hq.1] at hu
    split_ifs at hu with he
    · cases hu
      exact .inr ⟨mem_singleton_self f, he⟩
    · exact .inl hu
  · rintro q - rfl
    rw [hnode' _ hpi.1, if_pos rfl]
    rfl
  · intro w hw _
    refine pte_insert (fun q hq => hnode' q hq.1) (by rw [hnode, hc])
      (by rw [hram₂ f htf.symm, hself]) ?_ hw
    intro q u hq hu hql j
    have hut : u ≠ t := by
      rintro rfl
      have := h.path_inj hk hq.1 hp.1 hu ht
      rw [this] at hql
      omega
    rw [hram₂ u hut, hother u (hsame q u hq.1 hu)]
  · -- only an entry below 256 of the root can be new
    intro j hj
    by_cases hrt : r = t
    · have hnil : p = [] := h.path_inj hk hp.1 table_nil.1 ht (by rw [hrt]; rfl)
      rw [hnil] at hpi
      have hi : i < 256 := hpi.1.head i rfl
      rw [hrt, hself₂, Page.entry_setEntry_of_ne (by omega)]
    · rw [hram₂ r hrt, hother r (hsame [] r table_nil.1 rfl)]
  · intro g hg hnot
    have hgt : g ≠ t := by
      rintro rfl
      exact hnot p hp ht
    rw [hram₂ g hgt, hother g (by simpa using hg)]
  · rw [hnode' _ hpi.1, if_pos rfl]

/-- One level of the walk, with allocation. -/
theorem wp_nextTable {Q : Option ℕ → τ → Prop} (hA : A.Grants E room F) (h : Owned (A.get s) l T S)
    (hk : T k = some r) (ht : node (A.get s).ram r p = some t) (hpi : Table (p ++ [i]))
    (hE : room s (if (node (A.get s).ram r (p ++ [i])).isSome then 0 else 1) l)
    (hnull : F l → node (A.get s).ram r (p ++ [i]) = none → ∀ s', A.get s' = A.get s → Q none s')
    (hQ : ∀ c s' used l', Allocator.Leaves room s l s' l' → l = used ++ l' →
      used.length = (if (node (A.get s).ram r (p ++ [i])).isSome then 0 else 1) →
        Owned (A.get s') l' T S →
      Extends r (fun q => q = p ++ [i]) (fun _ => False) used (A.get s) (A.get s') →
      (A.get s').granted = (A.get s).granted → node (A.get s').ram r (p ++ [i]) = some c →
        Q (some c) s') :
    (A.nextTable t i).wp E Q s := by
  have hnode : node (A.get s).ram r (p ++ [i]) = child (A.get s).ram t i := follow_concat ht
  simp only [Allocator.nextTable, bind_eq, wp_bind, Allocator.wp_on_look]
  by_cases hpres : present (((A.get s).ram t).entry i) = true
  · -- the table is there
    have hc : child (A.get s).ram t i = some (frameOf (((A.get s).ram t).entry i)) := by rw [child,
      if_pos hpres]
    rw [hnode, hc] at hQ
    rw [if_pos hpres]
    refine hQ _ s [] l .refl rfl rfl h (Extends.refl ?_) rfl (hnode.trans hc)
    rintro q - rfl
    rw [hnode, hc]
    rfl
  · -- it is made
    have hc : child (A.get s).ram t i = none := by rw [child, if_neg hpres]
    rw [hnode, hc] at hQ hE hnull
    rw [if_neg hpres]
    simp only [wp_bind]
    refine hA.wp_kalloc h.chain hE (fun hF s' hs' => hnull hF rfl s' hs')
      fun s' f l' hl hs' hleft => ?_
    subst hl
    simp only [wp_bind, Allocator.wp_on_change, Allocator.get_put, Allocator.put_put, hs']
    obtain ⟨h₂, hext, hgr, hn⟩ := h.addTable hk ht hpi (hnode.trans hc) rfl
    refine hQ f _ [f] l' (hleft.put hA _) rfl rfl ?_ ?_ ?_ ?_
    all_goals rw [Allocator.get_put]
    · exact h₂
    · exact hext
    · exact hgr
    · exact hn

/-! ## What pages lack -/

/-- The paths of the tables of a page. -/
def prefixes (v : ℕ) : List (List ℕ) :=
  [[v / 512 ^ 3 % 512], [v / 512 ^ 3 % 512, v / 512 ^ 2 % 512], tablePath v]

/-- The paths of the tables of some pages that are not there. -/
def missing (ram : ℕ → Page) (r : ℕ) (vs : List ℕ) : Finset (List ℕ) :=
  (vs.flatMap prefixes).toFinset.filter fun p => (node ram r p).isNone

/-- The frames it takes to map these pages. -/
def cost (ram : ℕ → Page) (r : ℕ) (vs : List ℕ) : ℕ := vs.length + (missing ram r vs).card

theorem table_of_prefixes (hv : v < UPAGES) (hp : p ∈ prefixes v) : Table p := by
  have h := table_tablePath hv
  simp only [prefixes, mem_cons, not_mem_nil, or_false] at hp
  rcases hp with rfl | rfl | rfl
  · exact Table.of_append (s := [v / 512 ^ 2 % 512, v / 512 % 512]) h
  · exact Table.of_append (s := [v / 512 % 512]) h
  · exact h

omit [DecidableEq κ] [DecidableEq σ] in
theorem mem_missing {ram : ℕ → Page} {vs : List ℕ} :
    p ∈ missing ram r vs ↔ (∃ v ∈ vs, p ∈ prefixes v) ∧ node ram r p = none := by
  rw [missing, Finset.mem_filter, mem_toFinset, mem_flatMap, Option.isNone_iff_eq_none]

/-- One page lacks as many as its three levels do. -/
theorem card_missing_single (ram : ℕ → Page) (r v : ℕ) : (missing ram r [v]).card =
    (if (node ram r [v / 512 ^ 3 % 512]).isSome then 0 else 1) +
      (if (node ram r ([v / 512 ^ 3 % 512] ++ [v / 512 ^ 2 % 512])).isSome then 0 else 1) +
      (if (node ram r ([v / 512 ^ 3 % 512, v / 512 ^ 2 % 512] ++ [v / 512 % 512])).isSome then 0
        else 1) := by
  have hset : ([v].flatMap prefixes).toFinset = {[v / 512 ^ 3 % 512],
      [v / 512 ^ 3 % 512] ++ [v / 512 ^ 2 % 512],
      [v / 512 ^ 3 % 512, v / 512 ^ 2 % 512] ++ [v / 512 % 512]} := by
    simp [prefixes, tablePath]
  have hite : ∀ o : Option ℕ, (if o.isNone = true then 1 else 0) = if o.isSome then 0 else 1 := by
    rintro (_ | _) <;> rfl
  rw [missing, hset, Finset.card_filter, Finset.sum_insert (by simp), Finset.sum_insert (by simp),
    Finset.sum_singleton, hite, hite, hite, ← Nat.add_assoc]

/-- What a walk that is refused a table leaves: some of the tables of the page. -/
structure Broken (r v : ℕ) (used : List ℕ) (m m' : Mem) : Prop where
  /-- Tables for the page, and nothing else. -/
  ext : ∃ P, (∀ p, P p → p ∈ prefixes v) ∧ Extends r P (fun _ => False) used m m'
  /-- One at least is missing. -/
  lt : used.length < (missing m.ram r [v]).card
  granted : m'.granted = m.granted

theorem wp_walkpgdir {Q : Option (ℕ × ℕ) → τ → Prop} (hA : A.Grants E room F)
    (h : Owned (A.get s) l T S) (hk : T k = some r) (hv : pageOf va < UPAGES)
      (hE : room s (missing (A.get s).ram r [pageOf va]).card l)
    (hnull : ∀ s' used l', F l' → l = used ++ l' → Owned (A.get s') l' T S →
      Broken r (pageOf va) used (A.get s) (A.get s') → Q none s')
    (hQ : ∀ t s' used l', Allocator.Leaves room s l s' l' → l = used ++ l' →
      used.length = (missing (A.get s).ram r [pageOf va]).card →
      Owned (A.get s') l' T S → Extends r (· ∈ prefixes (pageOf va)) (fun _ => False) used (A.get s)
        (A.get s') →
      (A.get s').granted = (A.get s).granted →
        node (A.get s').ram r (tablePath (pageOf va)) = some t →
      Q (some (t, pageOf va % 512)) s') : (A.walkpgdir r va).wp E Q s := by
  have hidx := (index_pageOf va).symm.trans (index_eq _)
  simp only [tablePath, cons_append, nil_append, List.cons.injEq, and_true] at hidx
  obtain ⟨h1, h2, h3, h4⟩ := hidx
  have htab : ∀ {p}, p ∈ prefixes (pageOf va) → Table p := fun hp => table_of_prefixes hv hp
  have hcard := card_missing_single (A.get s).ram r (pageOf va)
  rw [hcard] at hE hQ
  simp only [Allocator.walkpgdir, bind_eq, wp_bind, h1, h2, h3, h4]
  generalize ha : pageOf va / 512 ^ 3 % 512 = a at *
  generalize hb : pageOf va / 512 ^ 2 % 512 = b at *
  generalize hc : pageOf va / 512 % 512 = c at *
  have hpre : prefixes (pageOf va) = [[a], [a] ++ [b], [a, b] ++ [c]] := by
    rw [prefixes, tablePath, ha, hb, hc]
    rfl
  rw [hpre] at htab hQ
  have ht₁ : Table [a] := htab (by simp)
  have ht₂ : Table ([a] ++ [b]) := htab (by simp)
  have ht₃ : Table ([a, b] ++ [c]) := htab (by simp)
  -- the three levels, one after the other
  refine wp_nextTable (p := []) hA h hk rfl ht₁
    (hA.le hE (le_trans (Nat.le_add_right _ _) (Nat.le_add_right _ _))) (fun hF hn s' hs' => ?_) ?_
  · refine hnull s' [] l hF rfl (by rw [hs']; exact h) ⟨⟨fun _ => False, fun _ => False.elim, ?_⟩,
      ?_, by rw [hs']⟩
    · rw [hs']
      exact Extends.refl fun _ _ => False.elim
    · rw [nil_append] at hn
      rw [hcard, hn]
      exact Nat.lt_of_lt_of_le Nat.one_pos (le_trans (Nat.le_add_right _ _) (Nat.le_add_right _ _))
  intro pdp s₁ u₁ l₁ hleft₁ hl₁ hu₁ hown₁ hext₁ hg₁ hn₁
  simp only [wp_bind]
  rw [nil_append] at hu₁ hn₁
  have hsome₁ : ∀ q, Table q → q ≠ [a] →
      (node (A.get s₁).ram r q).isSome = (node (A.get s).ram r q).isSome := by
    intro q hq hne
    rw [Bool.eq_iff_iff, hext₁.isSome_iff hq, or_iff_left]
    exact hne
  have hE₁ := hleft₁.left hA hE hl₁ hu₁ (Nat.le_of_eq (Nat.add_assoc _ _ _).symm)
  refine wp_nextTable (p := [a]) hA hown₁ hk hn₁ ht₂ ?_ (fun hF hn s' hs' => ?_) ?_
  · rw [hsome₁ _ ht₂ (by simp)]
    exact hA.le hE₁ (Nat.le_add_right _ _)
  · refine hnull s' u₁ l₁ hF hl₁ (by rw [hs']; exact hown₁)
      ⟨⟨_, fun q hq => ?_, by rw [hs']; exact hext₁⟩, ?_, by rw [hs']; exact hg₁⟩
    · rw [hpre, show q = [a] from hq]
      exact mem_cons_self
    · have hmiss := hsome₁ _ ht₂ (by simp)
      rw [hn] at hmiss
      rw [hcard, hu₁, ← hmiss]
      exact Nat.lt_of_lt_of_le (Nat.lt_succ_self _) (Nat.le_add_right _ _)
  intro pd s₂ u₂ l₂ hleft₂ hl₂ hu₂ hown₂ hext₂ hg₂ hn₂
  simp only [wp_bind]
  rw [hsome₁ _ ht₂ (by simp)] at hu₂
  have hsome₂ : ∀ q, Table q → q ≠ [a] → q ≠ [a] ++ [b] →
      (node (A.get s₂).ram r q).isSome = (node (A.get s).ram r q).isSome := by
    intro q hq hne hne'
    rw [← hsome₁ q hq hne, Bool.eq_iff_iff, hext₂.isSome_iff hq, or_iff_left]
    exact hne'
  have hE₂ := hleft₂.left hA hE₁ hl₂ hu₂ le_rfl
  refine wp_nextTable (p := [a, b]) hA hown₂ hk hn₂ ht₃ ?_ (fun hF hn s' hs' => ?_) ?_
  · rw [hsome₂ _ ht₃ (by simp) (by simp)]
    exact hE₂
  · refine hnull s' (u₁ ++ u₂) l₂ hF (by rw [hl₁, hl₂, append_assoc])
      (by rw [hs']; exact hown₂)
      ⟨⟨_, fun q hq => ?_, by
        rw [hs']
        exact (hext₁.trans hext₂).congr (fun _ => Iff.rfl)
          (fun _ => (or_self_iff : False ∨ False ↔ False))⟩, ?_, by rw [hs']; exact hg₂.trans hg₁⟩
    · rw [hpre]
      rcases hq with hq | hq
      · rw [show q = [a] from hq]
        exact mem_cons_self
      · rw [show q = [a] ++ [b] from hq]
        exact mem_cons_of_mem _ mem_cons_self
    · have hmiss := hsome₂ _ ht₃ (by simp) (by simp)
      rw [hn] at hmiss
      rw [hcard, length_append, hu₁, hu₂, ← hmiss]
      exact Nat.lt_succ_self _
  intro pt s₃ u₃ l₃ hleft₃ hl₃ hu₃ hown₃ hext₃ hg₃ hn₃
  rw [hsome₂ _ ht₃ (by simp) (by simp)] at hu₃
  refine hQ pt s₃ ((u₁ ++ u₂) ++ u₃) l₃ ?_ ?_ ?_ hown₃ ?_ (hg₃.trans (hg₂.trans hg₁)) ?_
  · have hle : ∀ {u l l' : List ℕ}, l = u ++ l' → l'.length ≤ l.length := fun hl => by
      rw [hl, length_append]
      exact Nat.le_add_left _ _
    exact (hleft₁.trans hleft₂ (hle hl₁) (hle hl₂)).trans hleft₃
      ((hle hl₂).trans (hle hl₁)) (hle hl₃)
  · rw [hl₁, hl₂, hl₃, append_assoc, append_assoc]
  · rw [length_append, length_append, hu₁, hu₂, hu₃]
  · refine ((hext₁.trans hext₂).trans hext₃).congr (fun q => ?_) (fun w => by simp)
    simp [or_assoc]
  · rw [tablePath, ha, hb, hc]
    exact hn₃

/-! ## Mapping a page -/

/-- One entry of a last-level table is set. -/
theorem pte_setEntry {ram ram' : ℕ → Page} {e : ℕ}
    (hnode : ∀ q, Table q → node ram' r q = node ram r q)
    (ht : node ram r (tablePath v) = some t)
    (halone : ∀ q, Table q → node ram r q = some t → q = tablePath v)
    (hself : ram' t = (ram t).setEntry (v % 512) e)
    (hother : ∀ q u, Table q → node ram r q = some u → u ≠ t → ram' u = ram u)
    (he : e < 2 ^ 64) (hv : v < UPAGES) (hw : w < UPAGES) :
    pte ram' r w = if w = v then e else pte ram r w := by
  rw [pte, pte, hnode _ (table_tablePath hw)]
  by_cases hwv : w = v
  · subst hwv
    rw [if_pos rfl, ht]
    change (ram' t).entry (w % 512) = e
    rw [hself, Page.entry_setEntry_self he]
  · rw [if_neg hwv]
    cases hu : node ram r (tablePath w) with
    | none => rfl
    | some u =>
      change (ram' u).entry (w % 512) = (ram u).entry (w % 512)
      by_cases hut : u = t
      · subst hut
        have hpath := halone _ (table_tablePath hw) hu
        rw [hself, Page.entry_setEntry_of_ne fun hlast => hwv (tablePath_inj hw hv hpath hlast)]
      · rw [hother _ u (table_tablePath hw) hu hut]

omit [DecidableEq κ] [DecidableEq σ] in
theorem Extends.append_nil (h : Extends r P D (used ++ []) m m') : Extends r P D used m m' := by
  rwa [List.append_nil] at h

/-- The frame in hand becomes that of a page. -/
theorem Owned.mapPage {fl : ℕ} (h : Owned m l T (hand S (some f))) (hk : T k = some r)
    (hv : v < UPAGES)
    (ht : node m.ram r (tablePath v) = some t) (hnone : present (pte m.ram r v) = false)
    (hfl : fl < PGSIZE) (hP : fl.testBit 0 = true)
      (hm' : m' = m.setEntry t (v % 512) (mkEntry f fl)) :
    Owned m' l T S ∧ Extends r (fun _ => False) (· = v) [] m m' ∧ m'.granted = m.granted ∧
      pte m'.ram r v = mkEntry f fl ∧ m'.ram f = m.ram f := by
  subst hm'
  have htab := table_tablePath hv
  have hentry : (m.ram t).entry (v % 512) = pte m.ram r v := by rw [pte_of_node ht]
  obtain ⟨hown₂, hnode₂⟩ := h.insert hk htab ht (i := v % 512) (index_eq v ▸ user_index hv)
    (by rw [child_of_entry hentry, hnone]; rfl) hfl hP fun hlt => absurd hlt (by simp [tablePath])
  have htf : t ≠ f := fun he => h.hand_fresh k r _ hk htab (he ▸ ht)
  have hrt : r ≠ t := by
    rintro rfl
    have hnil := h.path_inj hk table_nil.1 htab.1 rfl ht
    simp [tablePath] at hnil
  have hself :
    (m.setEntry t (v % 512) (mkEntry f fl)).ram t = (m.ram t).setEntry (v % 512) (mkEntry f fl) :=
    update_self _ _ _
  have hother : ∀ u, u ≠ t → (m.setEntry t (v % 512) (mkEntry f fl)).ram u = m.ram u := fun u hu =>
    update_of_ne hu _ _
  have htables :
    ∀ q, Table q → node (m.setEntry t (v % 512) (mkEntry f fl)).ram r q = node m.ram r q := by
    intro q hq
    rw [hnode₂ q hq.1, if_neg]
    rintro rfl
    exact absurd hq.2 (by simp [tablePath])
  have hpte₂ : ∀ w, w < UPAGES → pte (m.setEntry t (v % 512) (mkEntry f fl)).ram r w =
      if w = v then mkEntry f fl else pte m.ram r w := fun w hw =>
    pte_setEntry htables ht (fun q hq hu => h.path_inj hk hq.1 htab.1 hu ht) hself
      (fun _ u _ _ hu => hother u hu) (mkEntry_lt h.hand_given.lt hfl) hv hw
  refine ⟨hown₂, ⟨?_, ?_, fun _ _ => False.elim, ?_, ?_, ?_, rfl, rfl⟩, rfl, ?_, hother f htf.symm⟩
  · intro q u hq hu
    rwa [htables q hq]
  · intro q u hq hu
    rw [htables q hq] at hu
    exact .inl hu
  · intro w hw hne
    rw [hpte₂ w hw, if_neg hne]
  · intro j _
    rw [hother r hrt]
  · intro g _ hnot
    refine hother g ?_
    rintro rfl
    exact hnot _ htab ht
  · rw [hpte₂ v hv, if_pos rfl]

/-- `mappages` for one page, of the frame in hand. -/
theorem wp_mappages {Q : ℤ → τ → Prop} {perm : ℕ} (hA : A.Grants E room F)
    (h : Owned (A.get s) l T (hand S (some f))) (hk : T k = some r) (hv : v < UPAGES)
      (hperm : perm < PGSIZE) (hnone : present (pte (A.get s).ram r v) = false)
      (hE : room s (missing (A.get s).ram r [v]).card l)
    (hnull : ∀ s' used l', F l' → l = used ++ l' → Owned (A.get s') l' T (hand S (some f)) →
      Broken r v used (A.get s) (A.get s') → Q (-1) s')
    (hQ : ∀ s' used l', Allocator.Leaves room s l s' l' → l = used ++ l' →
      used.length = (missing (A.get s).ram r [v]).card →
      Owned (A.get s') l' T S → Extends r (· ∈ prefixes v) (· = v) used (A.get s) (A.get s') →
      (A.get s').granted = (A.get s).granted → pte (A.get s').ram r v = mkEntry f (perm ||| PTE_P) →
      (A.get s').ram f = (A.get s).ram f → Q 0 s') :
    (A.mappages r (v * PGSIZE) PGSIZE f perm).wp E Q s := by
  have hv' : v < 2 ^ 35 := hv
  have hpage : pageOf (v * PGSIZE) = v := Nat.mul_div_cancel v (by decide)
  have hdown : PGROUNDDOWN (v * PGSIZE) = v * PGSIZE := by
    rw [PGROUNDDOWN, Nat.mul_div_cancel v (by decide)]
  have hlast : PGROUNDDOWN (v * PGSIZE + PGSIZE - 1) = v * PGSIZE := by
    change (v * 4096 + 4096 - 1) / 4096 * 4096 = v * 4096
    omega
  have hfl : perm ||| PTE_P < PGSIZE := Nat.or_lt_two_pow (n := 12) hperm (by decide)
  have hP : (perm ||| PTE_P).testBit 0 = true := by
    rw [Nat.testBit_or]
    simp
  have hlt : v * PGSIZE + PGSIZE < 2 ^ 64 := by
    change v * 4096 + 4096 < 2 ^ 64
    omega
  have hone : 1 ≤ v * PGSIZE + PGSIZE := le_trans (by decide) (Nat.le_add_left _ _)
  rw [Allocator.mappages, add64_of_lt hlt, bind_eq, ret_bind, subU_of_le hone, bind_eq,
    ret_bind, hlast, hdown]
  dsimp only
  rw [Nat.sub_self, Nat.zero_div, Nat.zero_add]
  simp only [Allocator.mapLoop, bind_eq, wp_bind]
  refine wp_walkpgdir hA h hk (by rw [hpage]; exact hv) (by rw [hpage]; exact hE) ?_ ?_
  · rw [hpage]
    exact hnull
  rw [hpage]
  intro t s₁ used l' hleft hl hused hown hext hgr ht
  simp only [wp_bind, Allocator.wp_on_panicIf, Allocator.wp_on_change, if_true, Prog.pure_eq,
    wp_ret]
  have hpte₁ : pte (A.get s₁).ram r v = pte (A.get s).ram r v := hext.pte v hv id
  have hentry : ((A.get s₁).ram t).entry (v % 512) = pte (A.get s).ram r v := by rw [← hpte₁,
    pte_of_node ht]
  rw [hentry, hnone]
  refine ⟨fun hc => Bool.noConfusion hc, fun _ => ?_⟩
  obtain ⟨hown₂, hext₂, hgr₂, hpte₂, hfill⟩ :=
    hown.mapPage hk hv ht (by rw [hpte₁, hnone]) hfl hP rfl
  refine hQ _ used l' (hleft.put hA _) hl hused ?_ ?_ ?_ ?_ ?_
  all_goals rw [Allocator.get_put]
  · exact hown₂
  · exact ((hext.trans hext₂).congr (fun _ => iff_of_eq (or_false _))
      (fun _ => iff_of_eq (false_or _))).append_nil
  · exact hgr₂.trans hgr
  · exact hpte₂
  · rw [hfill]
    refine hext.same f (fun hu => h.hand_not_free ?_) fun p hp => h.hand_fresh k r p hk hp
    rw [hl]
    exact mem_append_left l' hu

/-! ## Allocating pages -/

/-- The pages `vs` have got new frames `fs` with flags and contents `src`; `gs` are recorded
as granted. -/
structure Allocated (r : ℕ) (src : ℕ → ℕ × Page) (vs used fs gs : List ℕ) (m m' : Mem) : Prop where
  /-- Tables for them, and nothing else. -/
  ext : Extends r (fun p => ∃ v ∈ vs, p ∈ prefixes v) (· ∈ vs) used m m'
  /-- Each page is there. -/
  mapped : ∀ w ∈ vs, ∃ f ∈ fs, pte m'.ram r w = mkEntry f (src w).1 ∧ m'.ram f = (src w).2
  /-- What is recorded. -/
  granted : m'.granted = m.granted ++ gs
  /-- The frames come from the free list and are no tables. -/
  taken : ∀ f ∈ fs, f ∈ used ∧ ∀ p, Table p → node m'.ram r p ≠ some f

/-- What `allocuvm` puts into a page: zeros, for the user. -/
def freshPage (_ : ℕ) : ℕ × Page := (PTE_P ||| PTE_W ||| PTE_U, Page.fill 0)

section Allocated

variable {src src' : ℕ → ℕ × Page} {vs ws u u' gs fs' gs' : List ℕ}

omit [DecidableEq κ] [DecidableEq σ]

theorem Allocated.nil : Allocated r src [] [] [] [] m m where
  ext := Extends.refl (by rintro p - ⟨w, hw, -⟩; cases hw)
  mapped := by simp
  granted := (List.append_nil _).symm
  taken := by simp

theorem Allocated.congr (h : Allocated r src vs used fs gs m m') (hsrc : ∀ w ∈ vs, src' w = src w) :
    Allocated r src' vs used fs gs m m' where
  ext := h.ext
  mapped w hw := by
    rw [hsrc w hw]
    exact h.mapped w hw
  granted := h.granted
  taken := h.taken

theorem Allocated.trans (h : Allocated r src vs u fs gs m m')
    (h' : Allocated r src ws u' fs' gs' m' m'')
    (hvs : ∀ v ∈ vs, v < UPAGES ∧ v ∉ ws) (hu : u.Disjoint u') :
    Allocated r src (vs ++ ws) (u ++ u') (fs ++ fs') (gs ++ gs') m m'' where
  ext := by
    refine (h.ext.trans h'.ext).congr (fun p => ?_) (fun w => mem_append.symm)
    simp only [mem_append, or_and_right, exists_or]
  mapped w hw := by
    rcases mem_append.1 hw with hw | hw
    · obtain ⟨f, hf, hp, hz⟩ := h.mapped w hw
      refine ⟨f, mem_append_left fs' hf, ?_, ?_⟩
      · rw [h'.ext.pte w (hvs w hw).1 (hvs w hw).2, hp]
      · rw [h'.ext.same f (fun hc => hu (h.taken f hf).1 hc) (h.taken f hf).2, hz]
    · obtain ⟨f, hf, hp⟩ := h'.mapped w hw
      exact ⟨f, mem_append_right fs hf, hp⟩
  granted := by rw [h'.granted, h.granted, append_assoc]
  taken f hf := by
    rcases mem_append.1 hf with hf | hf
    · refine ⟨mem_append_left u' (h.taken f hf).1, fun p hp hn => ?_⟩
      rcases h'.ext.new p f hp hn with hn | ⟨hn, -⟩
      · exact (h.taken f hf).2 p hp hn
      · exact hu (h.taken f hf).1 hn
    · exact ⟨mem_append_right u (h'.taken f hf).1, (h'.taken f hf).2⟩

/-- What the first page lacks and what the others then lack. -/
theorem card_missing_cons (h : Allocated r src [v] used fs gs m m')
    (hv : v < UPAGES) (hvs : ∀ w ∈ vs, w < UPAGES) :
    (missing m.ram r (v :: vs)).card =
      (missing m.ram r [v]).card + (missing m'.ram r vs).card := by
  have hnone :
    ∀ p, Table p → (node m'.ram r p = none ↔ node m.ram r p = none ∧ p ∉ prefixes v) := by
    intro p hp
    rw [← Option.not_isSome_iff_eq_none, ← Option.not_isSome_iff_eq_none,
      h.ext.isSome_iff hp, not_or]
    simp
  rw [← Finset.card_union_of_disjoint]
  · congr 1
    ext p
    rw [Finset.mem_union, mem_missing, mem_missing, mem_missing]
    constructor
    · rintro ⟨⟨w, hw, hp⟩, hn⟩
      by_cases hpv : p ∈ prefixes v
      · exact .inl ⟨⟨v, mem_singleton_self v, hpv⟩, hn⟩
      · rcases mem_cons.1 hw with rfl | hw
        · exact absurd hp hpv
        · exact .inr ⟨⟨w, hw, hp⟩, (hnone p (table_of_prefixes (hvs w hw) hp)).2 ⟨hn, hpv⟩⟩
    · rintro (⟨⟨w, hw, hp⟩, hn⟩ | ⟨⟨w, hw, hp⟩, hn⟩)
      · rw [mem_singleton] at hw
        exact ⟨⟨v, mem_cons_self, hw ▸ hp⟩, hn⟩
      · exact ⟨⟨w, mem_cons_of_mem v hw, hp⟩, ((hnone p (table_of_prefixes (hvs w hw) hp)).1 hn).1⟩
  · rw [Finset.disjoint_left]
    intro p hp hp'
    rw [mem_missing] at hp hp'
    obtain ⟨⟨w, hw, hpw⟩, -⟩ := hp
    obtain ⟨⟨w', hw', hpw'⟩, hn⟩ := hp'
    rw [mem_singleton] at hw
    subst hw
    exact ((hnone p (table_of_prefixes hv hpw)).1 hn).2 hpw

theorem missing_congr {ram ram' : ℕ → Page} (hvs : ∀ w ∈ vs, w < UPAGES)
    (hnode : ∀ p, Table p → node ram' r p = node ram r p) :
    missing ram' r vs = missing ram r vs := by
  ext p
  rw [mem_missing, mem_missing]
  refine and_congr_right ?_
  rintro ⟨w, hw, hp⟩
  rw [hnode p (table_of_prefixes (hvs w hw) hp)]

/-- The frames for a first page and those for the others. -/
theorem cost_cons (vs : List ℕ) (h : Allocated r src [v] (f :: u) fs gs m m')
    (hu : u.length = (missing m.ram r [v]).card) (hv : v < UPAGES) (hvs : ∀ w ∈ vs, w < UPAGES) :
    cost m.ram r (v :: vs) = (f :: u).length + cost m'.ram r vs := by
  rw [cost, cost, card_missing_cons h hv hvs, length_cons, length_cons, hu]
  omega

theorem cost_single_le : 1 + (missing m.ram r [v]).card ≤ cost m.ram r (v :: vs) := by
  have hle : (missing m.ram r [v]).card ≤ (missing m.ram r (v :: vs)).card := by
    refine Finset.card_le_card fun p hp => ?_
    rw [mem_missing] at hp ⊢
    obtain ⟨⟨w, hw, hpw⟩, hn⟩ := hp
    exact ⟨⟨w, by rw [mem_singleton.1 hw]; exact mem_cons_self, hpw⟩, hn⟩
  rw [cost, length_cons]
  omega

/-- The pages `vs` have got their frames `fs`, and a frame for `v` or for one of its tables has
been refused: `o` is the frame for `v`, where that was granted. -/
structure Refused (r : ℕ) (src : ℕ → ℕ × Page) (vs : List ℕ) (v : ℕ) (used fs gs : List ℕ)
    (o : Option ℕ) (m m' : Mem) : Prop where
  /-- Tables have been made, and nothing else. -/
  ext : ∃ P, Extends r P (· ∈ vs) used m m'
  /-- Each page is there. -/
  mapped : ∀ w ∈ vs, ∃ f ∈ fs, pte m'.ram r w = mkEntry f (src w).1 ∧ m'.ram f = (src w).2
  /-- So is each frame. -/
  onto : ∀ f ∈ fs, ∃ w ∈ vs, pte m'.ram r w = mkEntry f (src w).1
  /-- What is recorded. -/
  granted : m'.granted = m.granted ++ gs
  /-- The frames come from the free list and are no tables. -/
  taken : ∀ f ∈ fs, f ∈ used ∧ ∀ p, Table p → node m'.ram r p ≠ some f
  /-- They are distinct from each other. -/
  sub : (fs ++ o.toList).Sublist used
  /-- Without a frame for `v`, what has been used is for `vs`. -/
  count_none : o = none → used.length = cost m.ram r vs
  /-- With it, more has been used, but not all that `v` takes. -/
  count_some : o ≠ none → cost m.ram r vs < used.length ∧ used.length < cost m.ram r (vs ++ [v])

theorem Refused.nil (hg : m'.granted = m.granted) (he : m'.ram = m.ram)
    (hr : m'.kernelEnd = m.kernelEnd ∧
    m'.kpdpt = m.kpdpt) : Refused r src [] v [] [] [] none m m' where
  ext := ⟨fun _ => False, fun p t _ h => he ▸ h, fun p t _ h => Or.inl (he ▸ h),
    fun _ _ => False.elim,
    fun w _ _ => by rw [he], fun _ _ => by rw [he], fun _ _ _ => by rw [he], hr⟩
  mapped := by simp
  onto := by simp
  granted := by rw [hg, List.append_nil]
  taken := by simp
  sub := List.Sublist.refl []
  count_none _ := rfl
  count_some h := absurd rfl h

theorem Refused.hand (hext : ∃ P, (∀ p, P p → p ∈ prefixes v) ∧
    Extends r P (fun _ => False) (f :: u) m m')
    (hu : u.length < (missing m.ram r [v]).card) (hg : m'.granted = m.granted ++ gs) :
    Refused r src [] v (f :: u) [] gs (some f) m m' where
  ext := by
    obtain ⟨P, -, hext⟩ := hext
    exact ⟨P, hext.congr (fun _ => Iff.rfl) (fun w => by simp)⟩
  mapped := by simp
  onto := by simp
  granted := hg
  taken := by simp
  sub := List.Sublist.cons_cons f (nil_sublist u)
  count_none h := nomatch h
  count_some _ := by
    have hnil : cost m.ram r [] = 0 := rfl
    rw [hnil, nil_append, cost, length_singleton, length_cons]
    omega

theorem Refused.congr {o : Option ℕ} (h : Refused r src vs v used fs gs o m m') (hsrc : ∀ w ∈ vs,
    src' w = src w) :
    Refused r src' vs v used fs gs o m m' where
  ext := h.ext
  mapped w hw := by
    rw [hsrc w hw]
    exact h.mapped w hw
  onto f hf := by
    obtain ⟨w, hw, hp⟩ := h.onto f hf
    exact ⟨w, hw, by rw [hsrc w hw]; exact hp⟩
  granted := h.granted
  taken := h.taken
  sub := h.sub
  count_none := h.count_none
  count_some := h.count_some

/-- A page that gets its frames, and then others until one is refused. -/
theorem Refused.cons {o : Option ℕ} (gs : List ℕ) (h : Allocated r src [w] (f :: u) [f] gs m m')
    (hu : u.length = (missing m.ram r [w]).card) (h' : Refused r src vs v used fs gs' o m' m'')
    (hw : w < UPAGES ∧ w ∉ vs) (hvs : ∀ x ∈ vs ++ [v], x < UPAGES)
      (hdisj : (f :: u).Disjoint used) :
    Refused r src (w :: vs) v ((f :: u) ++ used) (f :: fs) (gs ++ gs') o m m'' := by
  obtain ⟨P, hext⟩ := h'.ext
  obtain ⟨g, hg, hpte, hfill⟩ := h.mapped w (mem_singleton_self w)
  rw [mem_singleton] at hg
  subst hg
  have hpte' : pte m''.ram r w = mkEntry g (src w).1 := (hext.pte w hw.1 hw.2).trans hpte
  have htaken := h.taken g (mem_singleton_self g)
  have hcost := fun xs hxs => cost_cons xs h hu hw.1 hxs
  refine ⟨⟨_, (h.ext.trans hext).congr (fun _ => Iff.rfl) fun x => ?_⟩, ?_, ?_, ?_, ?_, ?_,
    fun ho => ?_, fun ho => ?_⟩
  · simp
  · intro x hx
    rcases mem_cons.1 hx with rfl | hx
    · refine ⟨g, mem_cons_self, hpte', ?_⟩
      rw [hext.same g (fun hc => hdisj htaken.1 hc) htaken.2, hfill]
    · obtain ⟨f', hf', hp⟩ := h'.mapped x hx
      exact ⟨f', mem_cons_of_mem g hf', hp⟩
  · intro f' hf'
    rcases mem_cons.1 hf' with rfl | hf'
    · exact ⟨w, mem_cons_self, hpte'⟩
    · obtain ⟨x, hx, hp⟩ := h'.onto f' hf'
      exact ⟨x, mem_cons_of_mem w hx, hp⟩
  · rw [h'.granted, h.granted, append_assoc]
  · intro f' hf'
    rcases mem_cons.1 hf' with rfl | hf'
    · refine ⟨mem_append_left used htaken.1, fun p hp hn => ?_⟩
      rcases hext.new p _ hp hn with hn | ⟨hn, -⟩
      · exact htaken.2 p hp hn
      · exact hdisj htaken.1 hn
    · exact ⟨mem_append_right _ (h'.taken f' hf').1, (h'.taken f' hf').2⟩
  · exact List.Sublist.cons_cons g (h'.sub.trans (sublist_append_right u used))
  · rw [length_append, h'.count_none ho, hcost vs fun x hx =>
      hvs x (mem_append_left _ hx)]
  · obtain ⟨h1, h2⟩ := h'.count_some ho
    rw [length_append, cons_append, hcost vs fun x hx =>
      hvs x (mem_append_left _ hx), hcost _ hvs]
    omega

end Allocated

theorem lt_pageUp_iff {sz : ℕ} : v < pageUp sz ↔ v * PGSIZE < sz := by
  change v < (sz + 4095) / 4096 ↔ v * 4096 < sz
  omega

/-- A frame taken from the list and filled is in hand. -/
theorem Owned.take {pg : Page} {gs : List ℕ} (h : Owned m (f :: l) T S) (hk : T k = some r)
    (hm' : m' = { m.popped.write f pg with granted := m.granted ++ gs }) :
    Owned m' l T (hand S (some f)) ∧ Extends r (fun _ => False) (fun _ => False) [f] m m' ∧
      m'.ram f = pg ∧
      ∀ p, Table p → node m'.ram r p = node m.ram r p := by
  have hnot : ∀ p, Table p → node m.ram r p ≠ some f := fun p hp hu =>
    h.not_free hk hp.1 hu mem_cons_self
  have hram : ∀ g, g ≠ f → m'.ram g = m.ram g := by
    rw [hm']
    exact fun g hg => update_of_ne hg _ _
  have hnode : ∀ p, Table p → node m'.ram r p = node m.ram r p :=
    fun p hp => node_write hram hnot hp.1
  refine ⟨?_, ⟨?_, ?_, fun _ _ => False.elim, ?_, ?_, ?_, ?_⟩, ?_, hnode⟩
  · rw [hm']
    exact (h.hold pg).of_ram rfl rfl (fun _ _ => rfl) fun _ _ _ _ _ _ _ _ => rfl
  · intro p t hp ht
    rwa [hnode p hp]
  · intro p t hp ht
    rw [hnode p hp] at ht
    exact .inl ht
  · exact fun w hw _ => pte_write hram hnot hw
  · intro j _
    rw [hram r fun hr => hnot [] table_nil (by rw [hr]; rfl)]
  · exact fun g hg _ => hram g (by simpa using hg)
  · rw [hm']
    exact ⟨rfl, rfl⟩
  · rw [hm']
    exact update_self _ _ _

/-- A frame taken from the list, filled and mapped at a page. -/
theorem wp_mapFresh {Q : ℤ → τ → Prop} {perm : ℕ} {pg : Page} {gs : List ℕ} (hA : A.Grants E room F)
    (h : Owned m (f :: l) T S)
      (hs : A.get s = { m.popped.write f pg with granted := m.granted ++ gs })
    (hk : T k = some r) (hv : v < UPAGES) (hperm : perm < PGSIZE)
    (hnone : present (pte m.ram r v) = false) (hE : room s (missing m.ram r [v]).card l)
    (hnull : ∀ s' u l', F l' → l = u ++ l' → Owned (A.get s') l' T (hand S (some f)) →
      u.length < (missing m.ram r [v]).card → (A.get s').granted = m.granted ++ gs →
      (∃ P, (∀ p, P p → p ∈ prefixes v) ∧ Extends r P (fun _ => False) (f :: u) m (A.get s')) →
        Q (-1) s')
    (hQ : ∀ u l' s', Allocator.Leaves room s l s' l' → l = u ++ l' →
      u.length = (missing m.ram r [v]).card → Owned (A.get s') l' T S →
      Allocated r (fun _ => (perm ||| PTE_P, pg)) [v] (f :: u) [f] gs m (A.get s') → Q 0 s') :
    (A.mappages r (v * PGSIZE) PGSIZE f perm).wp E Q s := by
  obtain ⟨hown₁, hext₁, hself, hnode⟩ := h.take hk hs
  have hmiss : missing (A.get s).ram r [v] = missing m.ram r [v] :=
    missing_congr (fun w hw => by rwa [mem_singleton.1 hw]) hnode
  have hgr₁ : (A.get s).granted = m.granted ++ gs := by rw [hs]
  refine wp_mappages hA hown₁ hk hv hperm (by rw [hext₁.pte v hv id]; exact hnone)
    (hmiss ▸ hE) ?_ ?_
  · rintro s' u l' hF hl hown ⟨⟨P, hP, hext⟩, hlt, hgr⟩
    refine hnull s' u l' hF hl hown (hmiss ▸ hlt) (hgr.trans hgr₁) ⟨P, hP, ?_⟩
    exact (hext₁.trans hext).congr (fun _ => iff_of_eq (false_or _)) (fun _ => or_self_iff)
  rw [hmiss]
  intro s₂ u l₂ hleft hl₂ hu hown₂ hext hgr hpte hfill
  have hfu : f ∉ u := fun hf => hown₁.hand_not_free (by rw [hl₂]; exact mem_append_left l₂ hf)
  refine hQ u l₂ s₂ hleft hl₂ hu hown₂ ⟨?_, ?_, hgr.trans hgr₁, ?_⟩
  · refine (hext₁.trans hext).congr (fun p => ?_) (fun w => ?_)
    · simp
    · simp
  · intro w hw
    rw [mem_singleton.1 hw]
    exact ⟨f, mem_singleton_self f, hpte, hfill.trans hself⟩
  · intro g hg
    rw [mem_singleton.1 hg]
    refine ⟨mem_cons_self, fun p hp hn => ?_⟩
    rcases hext.new p f hp hn with hn | ⟨hn, -⟩
    · exact hown₁.hand_fresh k r p hk hp hn
    · exact hfu hn

theorem page_add_lt (hv : v < UPAGES) : v * PGSIZE + PGSIZE < 2 ^ 64 := by
  change v < 2 ^ 35 at hv
  change v * 4096 + 4096 < 2 ^ 64
  omega

/-- One pass of the loop of `allocuvm`. -/
theorem wp_allocLoop_succ {Q : ℕ → τ → Prop} {oldsz newsz fuel : ℕ} (hA : A.Grants E room F)
    (h : Owned (A.get s) l T S) (hk : T k = some r) (hlt : v < pageUp newsz) (hv : v < UPAGES)
    (hnone : present (pte (A.get s).ram r v) = false)
      (hE : room s (1 + (missing (A.get s).ram r [v]).card) l)
    (hstop : ∀ s' used o l', F l' → l = used ++ l' → Owned (A.get s') l' T (hand S o) →
      Refused r freshPage [] v used [] o.toList o (A.get s) (A.get s') →
        (A.undo r oldsz newsz o).wp E Q s')
    (hQ : ∀ f u l' s', Allocator.Leaves room s l s' l' → l = f :: (u ++ l') →
      u.length = (missing (A.get s).ram r [v]).card →
      Owned (A.get s') l' T S → Allocated r freshPage [v] (f :: u) [f] [f] (A.get s) (A.get s') →
      (A.allocLoop r oldsz newsz fuel ((v + 1) * PGSIZE)).wp E Q s') :
    (A.allocLoop r oldsz newsz (fuel + 1) (v * PGSIZE)).wp E Q s := by
  rw [Allocator.allocLoop, if_pos (lt_pageUp_iff.1 hlt)]
  simp only [bind_eq, wp_bind]
  refine hA.wp_kalloc h.chain (hA.le hE (Nat.le_add_right _ _)) (fun hF s' hs' => ?_)
    fun s₁ f l₁ hl hs₁ hleft => ?_
  · have hstay : Refused r freshPage [] v [] [] [] none (A.get s) (A.get s') := by
      rw [hs']
      exact .nil rfl rfl ⟨rfl, rfl⟩
    exact hstop s' [] none l hF rfl (by rw [hs']; exact h.empty) hstay
  subst hl
  simp only [wp_bind, Allocator.wp_on_change, hs₁]
  refine wp_mapFresh hA h (Allocator.get_put _ _) hk hv (by decide) hnone
    ((hleft.put hA _).left hA hE (show f :: l₁ = [f] ++ l₁ from rfl) rfl le_rfl) ?_
    fun u l' s' hleft' hl' hu hown halloc => ?_
  · intro s' u l' hF hl hown hlt hgr hext
    rw [if_pos (by decide)]
    exact hstop s' (f :: u) (some f) l' hF (by rw [hl, cons_append]) hown (.hand hext hlt hgr)
  · rw [if_neg (by decide), wp_bind, add64_of_lt (page_add_lt hv), ← Nat.succ_mul, wp_ret]
    refine hQ f u l' s' ((hleft.put hA _).trans hleft' (Nat.le_succ _) ?_) (by rw [hl']) hu hown
      (halloc.congr fun _ _ => rfl)
    rw [hl', length_append]
    exact Nat.le_add_left _ _

theorem wp_allocLoop {Q : ℕ → τ → Prop} {oldsz newsz fuel : ℕ} (hA : A.Grants E room F)
    (h : Owned (A.get s) l T S) (hk : T k = some r) (hfuel : pageUp newsz ≤ v + fuel)
    (hbound : pageUp newsz ≤ UPAGES)
    (hnone : ∀ w, v ≤ w → w < pageUp newsz → present (pte (A.get s).ram r w) = false)
    (hE : room s (cost (A.get s).ram r (List.range' v (pageUp newsz - v))) l)
    (hstop : ∀ s' n used fs o l', F l' → v + n < pageUp newsz → l = used ++ l' →
      Owned (A.get s') l' T (hand S o) →
      Refused r freshPage (List.range' v n) (v + n) used fs (fs ++ o.toList) o (A.get s)
        (A.get s') →
      (A.undo r oldsz newsz o).wp E Q s')
    (hQ : ∀ s' used fs l', Allocator.Leaves room s l s' l' → l = used ++ l' →
      used.length = cost (A.get s).ram r (List.range' v (pageUp newsz - v)) →
        Owned (A.get s') l' T S →
      Allocated r freshPage (List.range' v (pageUp newsz - v)) used fs fs (A.get s) (A.get s') →
        Q newsz s') :
    (A.allocLoop r oldsz newsz fuel (v * PGSIZE)).wp E Q s := by
  induction fuel generalizing v s l Q with
  | zero =>
    rw [show pageUp newsz - v = 0 by omega] at hQ
    exact hQ s [] [] l .refl rfl rfl h Allocated.nil
  | succ fuel ih =>
    by_cases hlt : v < pageUp newsz
    · have hv : v < UPAGES := lt_of_lt_of_le hlt hbound
      have hcons : List.range' v (pageUp newsz - v) =
          v :: List.range' (v + 1) (pageUp newsz - (v + 1)) := by
        rw [show pageUp newsz - v = (pageUp newsz - (v + 1)) + 1 by omega, range'_succ]
      have hvs : ∀ w ∈ List.range' (v + 1) (pageUp newsz - (v + 1)), v < w ∧ w < pageUp newsz := by
        intro w hw
        rw [mem_range'_1] at hw
        omega
      rw [hcons] at hE hQ
      refine wp_allocLoop_succ hA h hk hlt hv (hnone v le_rfl hlt) (hA.le hE cost_single_le)
        (fun s' used o l' hF hl hown href => hstop s' 0 used [] o l' hF hlt hl hown href) ?_
      intro f u l₂ s₂ hleft hl hu hown₂ halloc
      have hcost := cost_cons _ halloc hu hv fun w hw => lt_of_lt_of_le (hvs w hw).2 hbound
      have hdisj : ∀ {u' l₃}, l₂ = u' ++ l₃ → (f :: u).Disjoint u' := by
        intro u' l₃ hl₃
        have := h.ledger.nodup
        rw [hl, hl₃, ← append_assoc, ← cons_append, ← cons_append] at this
        exact disjoint_of_nodup_append (nodup_append.1 this).1
      refine ih hown₂ (by omega) (fun w hw hw' => ?_)
        (hleft.left hA hE (show l = (f :: u) ++ l₂ from hl) rfl (Nat.le_of_eq hcost.symm)) ?_ ?_
      · have hne : w ∉ [v] := by
          rw [mem_singleton]
          omega
        rw [halloc.ext.pte w (lt_of_lt_of_le hw' hbound) hne]
        exact hnone w (by omega) hw'
      · intro s₃ n u' fs o l₃ hF hn hl₃ hown₃ href
        refine hstop s₃ (n + 1) (f :: u ++ u') (f :: fs) o l₃ hF (by omega) ?_ hown₃ ?_
        · rw [hl, hl₃, cons_append, cons_append, append_assoc]
        · rw [range'_succ, show v + (n + 1) = v + 1 + n by omega]
          change Refused r freshPage _ _ _ _ ([f] ++ (fs ++ o.toList)) o _ _
          refine .cons _ halloc hu href ⟨hv, fun hin => ?_⟩ (fun w hw => ?_) (hdisj hl₃)
          · rw [mem_range'_1] at hin
            omega
          · rw [mem_append, mem_range'_1, mem_singleton] at hw
            refine lt_of_lt_of_le (b := pageUp newsz) ?_ hbound
            omega
      · intro s₃ u' fs l₃ hleft₃ hl₃ hu' hown₃ halloc'
        have hle₂ : l₂.length ≤ l.length := by
          rw [hl, length_cons, length_append]
          omega
        have hle₃ : l₃.length ≤ l₂.length := by
          rw [hl₃, length_append]
          omega
        refine hQ s₃ (f :: u ++ u') ([f] ++ fs) l₃ (hleft.trans hleft₃ hle₂ hle₃) ?_ ?_ hown₃
          (halloc.trans halloc' ?_ (hdisj hl₃))
        · rw [hl, hl₃, cons_append, cons_append, append_assoc]
        · rw [length_append, hu', hcost]
        · intro w hw
          rw [mem_singleton.1 hw]
          exact ⟨hv, fun hv' => (hvs v hv').1.ne rfl⟩
    · rw [show pageUp newsz - v = 0 by omega] at hQ
      rw [Allocator.allocLoop, if_neg fun hc => hlt (lt_pageUp_iff.2 hc)]
      exact hQ s [] [] l .refl rfl rfl h Allocated.nil

/-- With more pages to map than there are frames, `allocuvm` runs out of them. -/
theorem wp_allocLoop_out {Q : ℕ → Mem → Prop} {oldsz newsz fuel : ℕ} (h : Owned m l T S)
    (hk : T k = some r) (hE : E "Out of memory!") (hfuel : l.length < fuel)
    (hlen : v + l.length < pageUp newsz) (hU : v + l.length < UPAGES)
    (hnone : ∀ w, v ≤ w → w < UPAGES → present (pte m.ram r w) = false) :
    (allocLoop r oldsz newsz fuel (v * PGSIZE)).wp E Q m := by
  induction fuel generalizing v m l with
  | zero => exact absurd hfuel (Nat.not_lt_zero _)
  | succ fuel ih =>
    rw [← kernel_allocLoop]
    refine wp_allocLoop_succ (kernel_grants E) h hk (by omega) (by omega)
      (hnone v le_rfl (by omega)) (Or.inl hE)
      (fun _ _ _ _ => False.elim) ?_
    intro f u l' m' _ hl hu hown halloc
    rw [kernel_allocLoop]
    have hlen' : l'.length + 1 ≤ l.length := by
      rw [hl, length_cons, length_append]
      omega
    refine ih hown (by omega) (by omega) (by omega) fun w hw hw' => ?_
    have hne : w ∉ [v] := by
      rw [mem_singleton]
      omega
    have hpte : pte m'.ram r w = pte m.ram r w := halloc.ext.pte w hw' hne
    rw [hpte]
    exact hnone w (by omega) hw'

end Xv6.Mm
