import Xv6.Mm.Space

/-!
# Copying an address space

`copyuvm` builds a second tree beside that of the parent, page by page, and gives it up as a
whole when it is refused a frame.

* `copied` — the pages it gets to copy, and `tables` what they take beside their frames.
* `CopyRefused` — what it leaves behind when it returns null.
* `wp_copyuvm` — what it returns is a second tree with the parent's pages, in frames of its own.
-/

namespace Xv6.Mm

open Lib Prog Function List

variable {κ σ : Type} {T : κ → Option ℕ} {S : σ → Option ℕ} {k : κ} {m m' m'' : Mem}
  {ram ram' : ℕ → Page} {l l' used fs : List ℕ} {r t i f v w va n : ℕ} {p q : List ℕ}
  {E : String → Prop}

variable [DecidableEq κ] [DecidableEq σ] {τ : Type} {A : Allocator τ} {s : τ}
  {room : τ → ℕ → List ℕ → Prop} {F : List ℕ → Prop}

/-! ## Page by page -/

/-- The pages `copyuvm` copies: those from `v` on up to the first that is not mapped. -/
def copied (ram : ℕ → Page) (r v sz : ℕ) : List ℕ :=
  (List.range' v (pageUp sz - v)).takeWhile fun w => (view ram r w).isSome

omit [DecidableEq κ] [DecidableEq σ] in
theorem pages_cons {sz : ℕ} (hlt : v < pageUp sz) :
    List.range' v (pageUp sz - v) = v :: List.range' (v + 1) (pageUp sz - (v + 1)) := by
  rw [show pageUp sz - v = (pageUp sz - (v + 1)) + 1 by omega, range'_succ]

omit [DecidableEq κ] [DecidableEq σ] in
theorem copied_cons {sz : ℕ} {c : ℕ × Page} (hlt : v < pageUp sz) (hview : view ram r v = some c) :
    copied ram r v sz = v :: copied ram r (v + 1) sz := by
  rw [copied, pages_cons hlt, takeWhile_cons, hview]
  rfl

omit [DecidableEq κ] [DecidableEq σ] in
theorem copied_nil {sz : ℕ} (hlt : v < pageUp sz) (hview : view ram r v = none) :
    copied ram r v sz = [] := by
  rw [copied, pages_cons hlt, takeWhile_cons, hview]
  rfl

omit [DecidableEq κ] [DecidableEq σ] in
theorem copied_congr {sz : ℕ} (h : ∀ w, w < pageUp sz → view ram' r w = view ram r w) :
    copied ram' r v sz = copied ram r v sz := by
  rw [copied, copied]
  generalize hn : pageUp sz - v = n
  induction n generalizing v with
  | zero => rfl
  | succ n ih =>
    rw [range'_succ, takeWhile_cons, takeWhile_cons, h v (by omega), ih (by omega)]

omit [DecidableEq κ] [DecidableEq σ] in
theorem lt_of_mem_copied {sz : ℕ} (h : w ∈ copied ram r v sz) : v ≤ w ∧ w < pageUp sz := by
  have := mem_range'_1.1 (takeWhile_subset _ h)
  omega

omit [DecidableEq κ] [DecidableEq σ] in
theorem or_present {fl : ℕ} (h : fl.testBit 0 = true) : fl ||| PTE_P = fl := by
  refine Nat.eq_of_testBit_eq fun i => ?_
  rw [Nat.testBit_or]
  cases i with
  | zero => rw [h, Bool.true_or]
  | succ i =>
    rw [show PTE_P.testBit (i + 1) = false from Nat.testBit_lt_two_pow (by
      change 1 < 2 ^ (i + 1)
      exact Nat.one_lt_two_pow (Nat.succ_ne_zero i)), Bool.or_false]

/-- One turn of the loop of `copyuvm`, over any allocator: a page that is there goes into a frame of
its own. -/
theorem Allocator.Grants.wp_copyPage {Q : Option ℕ → τ → Prop} {rs sz fuel : ℕ} {src : ℕ → ℕ × Page}
    (hA : A.Grants E room F) (h : Owned (A.get s) l T S) (hk : T k = some r) (hv : v < UPAGES)
      (hlt : v < pageUp sz)
    (hp : present (pte (A.get s).ram rs v) = true) (hnone : present (pte (A.get s).ram r v) = false)
    (hE : room s (1 + (missing (A.get s).ram r [v]).card) l)
    (hnull : ∀ s' used o l', F l' → l = used ++ l' → Owned (A.get s') l' T (hand S o) →
      Refused r src [] v used [] [] o (A.get s) (A.get s') →
      ((A.on (freevm (some r))).bind fun _ => Prog.ret none).wp E Q s')
    (hQ : ∀ s' f u l', Leaves room s l s' l' → l = f :: u ++ l' →
      u.length = (missing (A.get s).ram r [v]).card →
      Owned (A.get s') l' T S →
      Allocated r (fun _ => (flagsOf (pte (A.get s).ram rs v) ||| PTE_P,
        (A.get s).ram (frameOf (pte (A.get s).ram rs v)))) [v] (f :: u) [f] [] (A.get s)
          (A.get s') →
      (A.copyLoop rs r sz fuel ((v + 1) * PGSIZE)).wp E Q s') :
    (A.copyLoop rs r sz (fuel + 1) (v * PGSIZE)).wp E Q s := by
  have hpage : pageOf (v * PGSIZE) = v := Nat.mul_div_cancel v (by decide)
  obtain ⟨t, ht⟩ : ∃ t, node (A.get s).ram rs (tablePath v) = some t := by
    refine follow_of_append (q := [v % 512]) (u := frameOf (pte (A.get s).ram rs v)) ?_
    rw [← index_eq]
    exact node_index_of_present hp
  rw [Allocator.copyLoop, if_pos (lt_pageUp_iff.1 hlt)]
  simp only [bind_eq, wp_bind]
  rw [wp_on]
  refine wp_walkpgdir_look ?_
  rw [hpage, slot, put_get, ht, Option.map_some]
  simp only [wp_bind, wp_on_look]
  rw [← pte_of_node ht, hp]
  simp only [Bool.not_true, Bool.false_eq_true, if_false, wp_bind]
  refine hA.wp_kalloc h.chain (hA.le hE (Nat.le_add_right _ _)) (fun hF s' hs' => ?_)
    fun s₁ f l₁ hl hs₁ hleft => ?_
  · refine hnull s' [] none l hF rfl (by rw [hs']; exact h.empty) ?_
    rw [hs']
    exact .nil rfl rfl ⟨rfl, rfl⟩
  subst hl
  simp only [wp_bind, wp_on_change, hs₁]
  have hfl : flagsOf (pte (A.get s).ram rs v) < PGSIZE := Nat.mod_lt _ (by decide)
  have hmem : (A.get s).popped.ram (frameOf (pte (A.get s).ram rs v)) =
      (A.get s).ram (frameOf (pte (A.get s).ram rs v)) := rfl
  have hstate : (A.get s).popped.write f ((A.get s).popped.ram (frameOf (pte (A.get s).ram rs v))) =
      { (A.get s).popped.write f ((A.get s).ram (frameOf (pte (A.get s).ram rs v))) with
        granted := (A.get s).granted ++ [] } := by
    rw [hmem, List.append_nil]
    rfl
  rw [hstate]
  refine wp_mapFresh hA h (get_put _ _) hk hv hfl hnone
    ((hleft.put hA _).left hA hE (show f :: l₁ = [f] ++ l₁ from rfl) rfl le_rfl) ?_
    fun u l' s' hleft' hl' hu hown halloc => ?_
  · intro s' u l' hF hl hown hlt' hgr hext
    rw [if_pos (by decide)]
    exact hnull s' (f :: u) (some f) l' hF (by rw [hl, cons_append]) hown (.hand hext hlt' hgr)
  rw [if_neg (by decide), wp_bind, add64_of_lt (page_add_lt hv), ← Nat.succ_mul, wp_ret]
  have hle : l'.length ≤ l₁.length := by
    rw [hl', length_append]
    exact Nat.le_add_left _ _
  exact hQ s' f u l' ((hleft.put hA _).trans hleft' (Nat.le_succ _) hle)
    (by rw [hl', cons_append]) hu hown halloc

omit [DecidableEq κ] [DecidableEq σ] in
/-- At a page that is not there, the walk or the check stops the loop. -/
theorem Allocator.wp_copyAbsent {Q : Option ℕ → τ → Prop} {rs sz fuel : ℕ} (hlt : v < pageUp sz)
    (hp : present (pte (A.get s).ram rs v) = false) (hwalk : E "copyuvm: pte should exist")
    (hcheck : E "copyuvm: page not present") :
    (A.copyLoop rs r sz (fuel + 1) (v * PGSIZE)).wp E Q s := by
  have hpage : pageOf (v * PGSIZE) = v := Nat.mul_div_cancel v (by decide)
  rw [Allocator.copyLoop, if_pos (lt_pageUp_iff.1 hlt)]
  simp only [bind_eq, wp_bind]
  rw [wp_on]
  refine wp_walkpgdir_look ?_
  rw [hpage, slot, put_get]
  cases ht : node (A.get s).ram rs (tablePath v) with
  | none => exact hwalk
  | some t =>
    simp only [Option.map_some, wp_bind, wp_on_look]
    rw [← pte_of_node ht, hp]
    exact hcheck

/-- The loop of `copyuvm`, over any allocator. -/
theorem Allocator.Grants.wp_copyLoop {Q : Option ℕ → τ → Prop} {ks : κ} {rs sz fuel : ℕ}
    (hA : A.Grants E room F)
    (h : Owned (A.get s) l T S) (hs : T ks = some rs) (hk : T k = some r) (hne : ks ≠ k)
      (hfuel : pageUp sz ≤ v + fuel)
    (hbound : pageUp sz ≤ UPAGES) (hnone : ∀ w, v ≤ w → w < pageUp sz →
      view (A.get s).ram r w = none)
    (hE : room s (cost (A.get s).ram r (copied (A.get s).ram rs v sz)) l)
    (hstop : cost (A.get s).ram r (copied (A.get s).ram rs v sz) ≤ l.length →
      ¬(∀ w, v ≤ w → w < pageUp sz → (view (A.get s).ram rs w).isSome) →
      E "copyuvm: pte should exist" ∧ E "copyuvm: page not present")
    (hnull : ∀ s' n used fs o l', F l' → v + n < pageUp sz → l = used ++ l' →
      Owned (A.get s') l' T (hand S o) →
      Refused r (fun w => (view (A.get s).ram rs w).getD (freshPage w)) (List.range' v n) (v + n)
        used fs [] o
        (A.get s) (A.get s') → ((A.on (freevm (some r))).bind fun _ => Prog.ret none).wp E Q s')
    (hQ : ∀ s' used fs l', Leaves room s l s' l' → l = used ++ l' →
      used.length = cost (A.get s).ram r (copied (A.get s).ram rs v sz) →
      (∀ w, v ≤ w → w < pageUp sz → (view (A.get s).ram rs w).isSome) → Owned (A.get s') l' T S →
      Allocated r (fun w => (view (A.get s).ram rs w).getD (freshPage w))
        (List.range' v (pageUp sz - v)) used
        fs [] (A.get s) (A.get s') → Q (some r) s') :
    (A.copyLoop rs r sz fuel (v * PGSIZE)).wp E Q s := by
  induction fuel generalizing v s l Q with
  | zero =>
    have hdone : pageUp sz - v = 0 := by omega
    rw [copied, hdone] at hQ
    exact hQ s [] [] l .refl rfl rfl (fun w _ _ => by omega) h Allocated.nil
  | succ fuel ih =>
    by_cases hlt : v < pageUp sz
    · have hv : v < UPAGES := lt_of_lt_of_le hlt hbound
      by_cases hp : present (pte (A.get s).ram rs v) = true
      · -- the page is there and is copied
        have hview := view_of_pte rfl hp
        rw [copied_cons hlt hview] at hE hQ hstop
        have hE₁ : room s (1 + (missing (A.get s).ram r [v]).card) l := hA.le hE cost_single_le
        have hfl : flagsOf (pte (A.get s).ram rs v) < PGSIZE := Nat.mod_lt _ (by decide)
        refine hA.wp_copyPage h hk hv hlt hp (view_eq_none_iff.1 (hnone v le_rfl hlt)) hE₁
          (fun s' used o l' hF hl hown href => hnull s' 0 used [] o l' hF hlt hl hown href) ?_
        intro s' f u l' hleft₁ hl hu hown halloc
        have hsrc : ∀ w, w < UPAGES → view (A.get s').ram rs w = view (A.get s).ram rs w :=
          fun w hw =>
          view_congr (fun p t hp ht => halloc.ext.same_tree h hk hl hs hne hp ht) hw
        have hle : l'.length ≤ l.length := by
          rw [hl, length_append]
          exact Nat.le_add_left _ _
        have hdisj : ∀ {u' l₂}, l' = u' ++ l₂ → (f :: u).Disjoint u' := by
          intro u' l₂ hl₂
          have := h.ledger.nodup
          rw [hl, hl₂, ← append_assoc] at this
          exact disjoint_of_nodup_append (nodup_append.1 this).1
        have hrest : copied (A.get s').ram rs (v + 1) sz = copied (A.get s).ram rs (v + 1) sz :=
          copied_congr fun w hw => hsrc w (lt_of_lt_of_le hw hbound)
        have hcost :=
          cost_cons _ halloc hu hv fun w (hw : w ∈ copied (A.get s).ram rs (v + 1) sz) =>
          lt_of_lt_of_le (lt_of_mem_copied hw).2 hbound
        have hcopy : Allocated r (fun w => (view (A.get s).ram rs w).getD (freshPage w)) [v]
          (f :: u) [f] []
            (A.get s) (A.get s') := by
          refine halloc.congr fun w hw => ?_
          rw [mem_singleton.1 hw, hview, or_present (loadable_of_view hview).2]
          rfl
        have hall : (∀ w, v + 1 ≤ w → w < pageUp sz → (view (A.get s').ram rs w).isSome) →
            ∀ w, v ≤ w → w < pageUp sz → (view (A.get s).ram rs w).isSome := by
          intro hall w hw hw'
          rcases Nat.eq_or_lt_of_le hw with rfl | hw
          · rw [hview]
            rfl
          · rw [← hsrc w (lt_of_lt_of_le hw' hbound)]
            exact hall w hw hw'
        refine ih hown (by omega) (fun w hw hw' => ?_) ?_ (fun hle hnot => ?_) ?_ ?_
        · have hne : w ∉ [v] := by
            rw [mem_singleton]
            omega
          rw [halloc.view h hk hl (fun _ _ => ⟨Nat.or_lt_two_pow (n := 12) hfl (by decide), ?_⟩)
            (lt_of_lt_of_le hw' hbound), if_neg hne]
          · exact hnone w (by omega) hw'
          · rw [Nat.testBit_or]
            simp
        · rw [hrest]
          exact hleft₁.left hA hE hl rfl (Nat.le_of_eq hcost.symm)
        · refine hstop ?_ fun hc => hnot fun w hw hw' => ?_
          · rw [hrest] at hle
            rw [hcost, hl, length_append]
            omega
          · rw [hsrc w (lt_of_lt_of_le hw' hbound)]
            exact hc w (by omega) hw'
        · intro s₂ n u' fs o l₂ hF hn hl₂ hown₂ href
          refine hnull s₂ (n + 1) (f :: u ++ u') (f :: fs) o l₂ hF (by omega)
            (by rw [hl, hl₂, append_assoc])
            hown₂ ?_
          rw [range'_succ, show v + (n + 1) = v + 1 + n by omega]
          refine Refused.cons [] hcopy hu (href.congr fun w hw => ?_) ⟨hv, fun hin => ?_⟩
            (fun w hw => ?_) (hdisj hl₂)
          · rw [mem_range'_1] at hw
            rw [hsrc w (by omega)]
          · rw [mem_range'_1] at hin
            omega
          · rw [mem_append, mem_range'_1, mem_singleton] at hw
            refine lt_of_lt_of_le (b := pageUp sz) ?_ hbound
            omega
        · intro s₂ u' fs l₂ hleft₂ hl₂ hu' hall' hown₂ halloc'
          rw [pages_cons hlt] at hQ
          refine hQ s₂ (f :: u ++ u') ([f] ++ fs) l₂ (hleft₁.trans hleft₂ hle ?_)
            (by rw [hl, hl₂, append_assoc]) ?_ (hall hall') hown₂ ?_
          · rw [hl₂, length_append]
            exact Nat.le_add_left _ _
          · rw [length_append, hu', hcost, hrest]
          · refine hcopy.trans (halloc'.congr fun w hw => ?_) ?_ (hdisj hl₂)
            · rw [mem_range'_1] at hw
              rw [hsrc w (by omega)]
            · intro w hw
              rw [mem_singleton.1 hw]
              refine ⟨hv, fun hc => ?_⟩
              rw [mem_range'_1] at hc
              omega
      · -- it is not, and the walk or the check says so
        have hnoview : view (A.get s).ram rs v = none := view_eq_none_iff.2 (Bool.eq_false_iff.2 hp)
        rw [copied_nil hlt hnoview] at hstop
        obtain ⟨hE₁, hE₂⟩ := hstop (Nat.zero_le _) fun hc => by
          have := hc v le_rfl hlt
          rw [hnoview] at this
          cases this
        exact Allocator.wp_copyAbsent hlt (Bool.eq_false_iff.2 hp) hE₁ hE₂
    · have hdone : pageUp sz - v = 0 := by omega
      rw [copied, hdone] at hQ
      rw [Allocator.copyLoop, if_neg fun hc => hlt (lt_pageUp_iff.2 hc)]
      exact hQ s [] [] l .refl rfl rfl (fun w _ _ => by omega) h Allocated.nil

/-- The tables it takes to map these pages in an empty tree. -/
def tables (vs : List ℕ) : ℕ := (vs.flatMap prefixes).toFinset.card

omit [DecidableEq κ] [DecidableEq σ] in
theorem cost_rootPage {kpdpt : ℕ} {vs : List ℕ} (h : ram r = rootPage kpdpt)
    (hvs : ∀ w ∈ vs, w < UPAGES) : cost ram r vs = vs.length + tables vs := by
  rw [cost, missing, tables, Finset.filter_true_of_mem]
  intro p hp
  rw [mem_toFinset, mem_flatMap] at hp
  obtain ⟨w, hw, hpw⟩ := hp
  rw [node_rootPage h (table_of_prefixes (hvs w hw) hpw).1, if_neg]
  · rfl
  · rintro rfl
    simp [prefixes, tablePath] at hpw

/-! ## The whole tree -/

omit [DecidableEq σ] in
/-- The frames of a new tree were free. -/
theorem Owned.mem_of_new {S' : Option σ → Option ℕ} (h : Owned m l T S) (hk : T k = none)
    (h' : Owned m' l' (update T k (some r)) S') (hS : ∀ x, S' (some x) = S x)
    (hend : m'.kernelEnd = m.kernelEnd)
    (hsame : ∀ k' r' p u, T k' = some r' → User p → node m.ram r' p = some u → m'.ram u = m.ram u)
    (hp : User p) (hn : node m'.ram r p = some f) : f ∈ l := by
  have hspot : spots m'.ram (update T k (some r)) S' (.tree k p) = some f := by
    rw [spots_tree (update_self ..) hp, hn]
  have hgiven : m.Given f := by
    have hg := h'.ledger.given_of_place hspot
    exact ⟨hend ▸ hg.1, hg.2⟩
  refine ((h.ledger.covered f).1 hgiven).resolve_right ?_
  rintro ⟨x, hx⟩
  cases x with
  | solo y =>
    have he := h'.ledger.inj (.tree k p) (.solo (some y)) f hspot ((hS y).trans hx)
    cases he
  | tree k' q =>
    obtain ⟨r', hk', hq, hx⟩ := node_of_spots hx
    have hne : k' ≠ k := by
      rintro rfl
      rw [hk] at hk'
      cases hk'
    have hold : spots m'.ram (update T k (some r)) S' (.tree k' q) = some f := by
      rw [spots_tree (by rw [update_of_ne hne, hk']) hq,
        node_congr (fun q' t hq' ht => hsame k' r' q' t hk' hq'.1 ht) hq, hx]
    have he := h'.ledger.inj _ _ f hspot hold
    exact hne (Spot.tree.inj he).1.symm

omit [DecidableEq κ] [DecidableEq σ] in
/-- Between two states with the same trees, the list loses what is in hand. -/
theorem Owned.mem_list_iff {o : Option ℕ} (h : Owned m l T S) (h' : Owned m' l' T (hand S o))
    (hend : m'.kernelEnd = m.kernelEnd)
    (hsame : ∀ k' r' p u, T k' = some r' → User p → node m.ram r' p = some u → m'.ram u = m.ram u) :
    f ∈ l' ↔ f ∈ l ∧ o ≠ some f := by
  have hgiven : m'.Given f ↔ m.Given f := by rw [Mem.Given, Mem.Given, hend]
  have htree : ∀ k' q, spots m'.ram T (hand S o) (.tree k' q) = spots m.ram T S (.tree k' q) := by
    intro k' q
    rw [spots, spots]
    split_ifs with hq
    · cases hk' : T k' with
      | none => rfl
      | some r' => exact node_congr (fun q' t hq' ht => hsame k' r' q' t hk' hq'.1 ht) hq
    · rfl
  constructor
  · intro hf
    refine ⟨((h.ledger.covered f).1 (hgiven.1 (h'.ledger.given_of_free hf))).resolve_right ?_,
      fun ho => ?_⟩
    · rintro ⟨k' | x, hx⟩
      · exact h'.ledger.apart _ f ((htree _ _).trans hx) hf
      · exact h'.ledger.apart (.solo (some x)) f hx hf
    · exact h'.ledger.apart (.solo none) f ho hf
  · rintro ⟨hf, ho⟩
    refine ((h'.ledger.covered f).1 (hgiven.2 (h.ledger.given_of_free hf))).resolve_right ?_
    rintro ⟨k' | _ | x, hx⟩
    · exact h.ledger.apart _ f ((htree _ _).symm.trans hx) hf
    · exact ho hx
    · exact h.ledger.apart (.solo x) f hx hf

/-- What `copyuvm` leaves when it returns null: `used` frames have been taken, and all but the
one in hand, if there is one, are on the list again. -/
structure CopyRefused (T : κ → Option ℕ) (S : σ → Option ℕ) (l used l' : List ℕ) (o : Option ℕ)
    (m' : Mem) : Prop where
  owned : Owned m' l' T (hand S o)
  mem_iff : ∀ g, g ∈ l' ↔ g ∈ l ∧ o ≠ some g
  hand_mem : ∀ g ∈ o, g ∈ l
  /-- With nothing in hand, the root was refused or the frame of a page. -/
  count_none : o = none → used.length = 0 ∨ ∃ j, used.length = 1 + (j + tables (List.range' 1 j))
  /-- With a frame in hand, a table for it was. -/
  count_some : o ≠ none → ∃ j, 1 + (j + tables (List.range' 1 j)) < used.length ∧
    used.length < 1 + (j + 1 + tables (List.range' 1 (j + 1)))

omit [DecidableEq σ] in
/-- The tree of a copy that was refused a frame is freed. -/
theorem CopyRefused.of_refused {src : ℕ → ℕ × Page} {o : Option ℕ} {fs' : List ℕ}
    (h : Owned m (f :: l) T S) (hk : T k = none) (hm₁ : m' = m.popped.write f (rootPage m.kpdpt))
    (hown₁ : Owned m' l (update T k (some f)) S) (hl : l = used ++ l') (hn : 1 + n ≤ UPAGES - 1)
    (href : Refused f src (List.range' 1 n) (1 + n) used fs fs' o m' m'')
    (hown : Owned m'' l' (update T k (some f)) (hand S o)) {m₃ : Mem}
    (hfreed : Freed m'' l' (treeFrames m''.ram f) m₃)
    (hown₃ : Owned m₃ ((treeFrames m''.ram f).reverse ++ l')
      (update (update T k (some f)) k none) (hand S o)) :
    CopyRefused T S (f :: l) (f :: used) ((treeFrames m''.ram f).reverse ++ l') o m₃ := by
  obtain ⟨P, hext⟩ := href.ext
  have hroot : m'.ram f = rootPage m.kpdpt := by
    rw [hm₁]
    exact update_self _ _ _
  have hback : update (update T k (some f)) k none = T := by
    rw [update_idem, update_eq_self_iff, hk]
  rw [hback] at hown₃
  have hkf := update_self k (some f) T
  have hold : ∀ k' r', T k' = some r' → k' ≠ k ∧ update T k (some f) k' = some r' := by
    intro k' r' hk'
    have hne : k' ≠ k := by
      rintro rfl
      rw [hk] at hk'
      cases hk'
    exact ⟨hne, by rw [update_of_ne hne, hk']⟩
  -- the frames of the other trees, from one state to the next
  have hsame₁ :
    ∀ k' r' p u, T k' = some r' → User p → node m.ram r' p = some u → m'.ram u = m.ram u := by
    intro k' r' p u hk' hp hu
    rw [hm₁]
    refine update_of_ne ?_ _ _
    rintro rfl
    exact h.not_free hk' hp hu mem_cons_self
  have hnode₁ : ∀ k' r' p, T k' = some r' → User p → node m'.ram r' p = node m.ram r' p :=
    fun k' r' p hk' hp => node_congr (fun q t hq ht => hsame₁ k' r' q t hk' hq.1 ht) hp
  have hsame₂ :
    ∀ k' r' p u, T k' = some r' → User p → node m.ram r' p = some u → m''.ram u = m.ram u := by
    intro k' r' p u hk' hp hu
    rw [← hsame₁ k' r' p u hk' hp hu]
    exact hext.same_tree hown₁ hkf hl (hold k' r' hk').2 (hold k' r' hk').1 hp
      (by rw [hnode₁ k' r' p hk' hp, hu])
  have hend₁ : m'.kernelEnd = m.kernelEnd := by
    rw [hm₁]
    rfl
  have hsame₃ :
    ∀ k' r' p u, T k' = some r' → User p → node m.ram r' p = some u → m₃.ram u = m.ram u := by
    intro k' r' p u hk' hp hu
    rw [← hsame₂ k' r' p u hk' hp hu]
    refine hfreed.same u fun hin => ?_
    obtain ⟨q, hq, hn⟩ := mem_treeFrames.1 hin
    have hmem := h.mem_of_new hk hown (fun _ => rfl) (hext.rest.1.trans hend₁) hsame₂ hq hn
    exact h.not_free hk' hp hu hmem
  have hcount :
    ∀ j, j ≤ n + 1 → cost m'.ram f (List.range' 1 j) = j + tables (List.range' 1 j) := by
    intro j hj
    rw [cost_rootPage hroot fun w hw => ?_, length_range']
    rw [mem_range'_1] at hw
    omega
  have hsub : ∀ g ∈ o, g ∈ used := fun g hg =>
    href.sub.subset (mem_append_right fs (Option.mem_toList.2 hg))
  refine ⟨hown₃, fun g => h.mem_list_iff hown₃ (hfreed.rest.1.trans (hext.rest.1.trans hend₁))
    hsame₃, fun g hg => ?_, fun ho => Or.inr ⟨n, ?_⟩, fun ho => ⟨n, ?_⟩⟩
  · rw [hl]
    exact mem_cons_of_mem f (mem_append_left l' (hsub g hg))
  · rw [length_cons, href.count_none ho, hcount n (Nat.le_succ n), Nat.add_comm]
  · obtain ⟨h1, h2⟩ := href.count_some ho
    rw [hcount n (Nat.le_succ n)] at h1
    rw [show List.range' 1 n ++ [1 + n] = List.range' 1 (n + 1) by rw [range'_concat, Nat.one_mul],
      hcount (n + 1) le_rfl] at h2
    rw [length_cons]
    omega

omit [DecidableEq κ] [DecidableEq σ] in
/-- A new tree that has been given pages has them, and no others. -/
theorem view_allocated {kpdpt sz : ℕ} {src : ℕ → Option (ℕ × Page)}
    (ha : Allocated r (fun w => (src w).getD (freshPage w)) (List.range' 1 (pageUp sz - 1)) used
      fs [] m m')
    (h : Owned m l T S) (hk : T k = some r) (hl : l = used ++ l') (hroot : m.ram r = rootPage kpdpt)
    (hsrc : ∀ w, 1 ≤ w → w < pageUp sz → ∃ c, src w = some c ∧ Loadable c) (hw : w < UPAGES) :
    view m'.ram r w = if 1 ≤ w ∧ w < pageUp sz then src w else none := by
  have hmem : ∀ w, w ∈ List.range' 1 (pageUp sz - 1) ↔ 1 ≤ w ∧ w < pageUp sz := by
    intro w
    rw [mem_range'_1]
    omega
  rw [ha.view h hk hl (fun w hw => ?_) hw]
  · simp only [hmem]
    split_ifs with hin
    · obtain ⟨c, hc, -⟩ := hsrc w hin.1 hin.2
      rw [hc]
      rfl
    · exact view_rootPage hroot hw
  · obtain ⟨c, hc, hload⟩ := hsrc w ((hmem w).1 hw).1 ((hmem w).1 hw).2
    rw [hc]
    exact hload

omit [DecidableEq κ] [DecidableEq σ] in
/-- Nothing else changes beside the root and the frames it was given. -/
theorem same_allocated {kpdpt g : ℕ} {src : ℕ → ℕ × Page} {vs gs : List ℕ}
    (ha : Allocated r src vs used fs gs m m') (hroot : m.ram r = rootPage kpdpt) (hr : g ≠ r)
    (hg : g ∉ used) : m'.ram g = m.ram g := by
  refine ha.ext.same g hg fun p hp hn => ?_
  rw [node_rootPage hroot hp.1] at hn
  split_ifs at hn
  cases hn
  exact hr rfl

/-- `copyuvm`, over any allocator. -/
theorem Allocator.Grants.wp_copyuvm {Q : Option ℕ → τ → Prop} {ks : κ} {rs sz : ℕ}
    (hA : A.Grants E room F) (h : Owned (A.get s) l T S) (hs : T ks = some rs) (hk : T k = none)
      (hbound : pageUp sz ≤ UPAGES)
    (hE : room s (1 + ((copied (A.get s).ram rs 1 sz).length + tables
      (copied (A.get s).ram rs 1 sz))) l)
    (hstop : 1 + ((copied (A.get s).ram rs 1 sz).length + tables (copied (A.get s).ram rs 1 sz)) ≤
      l.length →
      ¬(∀ w, 1 ≤ w → w < pageUp sz → (view (A.get s).ram rs w).isSome) →
      E "copyuvm: pte should exist" ∧ E "copyuvm: page not present")
    (hnull : ∀ s' used o l' l'', F l' → l = used ++ l' → CopyRefused T S l used l'' o (A.get s') →
      Q none s')
    (hQ : ∀ s' f used l', Leaves room s l s' l' → l = used ++ l' →
      used.length = 1 + ((copied (A.get s).ram rs 1 sz).length + tables
        (copied (A.get s).ram rs 1 sz)) →
      (∀ w, 1 ≤ w → w < pageUp sz → (view (A.get s).ram rs w).isSome) →
      Owned (A.get s') l' (update T k (some f)) S →
      (∀ w, w < UPAGES → view (A.get s').ram f w =
        if 1 ≤ w ∧ w < pageUp sz then view (A.get s).ram rs w else none) →
      (∀ g, g ∉ l → (A.get s').ram g = (A.get s).ram g) →
      (A.get s').kernelEnd = (A.get s).kernelEnd ∧ (A.get s').kpdpt = (A.get s).kpdpt ∧
        (A.get s').granted = (A.get s).granted →
      (∀ i, 256 ≤ i → ((A.get s').ram f).entry i = (rootPage (A.get s).kpdpt).entry i) →
      Q (some f) s') :
    (A.copyuvm rs sz).wp E Q s := by
  have hne : ks ≠ k := by
    rintro rfl
    rw [hs] at hk
    cases hk
  simp only [Allocator.copyuvm, bind_eq, wp_bind]
  refine hA.wp_setupkvm h hk (hA.le hE (Nat.le_add_right _ _)) (fun hF s' hs' => ?_)
    fun s₁ f l₁ hleft hl hm₁ hown => ?_
  · refine hnull s' [] none l l hF rfl ⟨by rw [hs']; exact h.empty, fun g => by simp, by simp,
      fun _ => Or.inl rfl, fun ho => absurd rfl ho⟩
  subst hl
  have hroot : (A.get s₁).ram f = rootPage (A.get s).kpdpt := by
    rw [hm₁]
    exact update_self _ _ _
  have hother : ∀ g, g ≠ f → (A.get s₁).ram g = (A.get s).ram g := by
    rw [hm₁]
    exact fun g hg => update_of_ne hg _ _
  have hsrc : ∀ w, w < UPAGES → view (A.get s₁).ram rs w = view (A.get s).ram rs w := fun w hw =>
    view_congr (fun p t hp ht => hother t fun he =>
      h.not_free hs hp ht (by rw [he]; exact mem_cons_self)) hw
  have hcopied : copied (A.get s₁).ram rs 1 sz = copied (A.get s).ram rs 1 sz :=
    copied_congr fun w hw => hsrc w (lt_of_lt_of_le hw hbound)
  have hcost : cost (A.get s₁).ram f (copied (A.get s₁).ram rs 1 sz) =
      (copied (A.get s).ram rs 1 sz).length + tables (copied (A.get s).ram rs 1 sz) := by
    rw [hcopied]
    exact cost_rootPage hroot fun w hw => lt_of_lt_of_le (lt_of_mem_copied hw).2 hbound
  have hall : (∀ w, 1 ≤ w → w < pageUp sz → (view (A.get s₁).ram rs w).isSome) ↔
      ∀ w, 1 ≤ w → w < pageUp sz → (view (A.get s).ram rs w).isSome := by
    refine forall_congr' fun w => imp_congr_right fun _ => imp_congr_right fun hw => ?_
    rw [hsrc w (lt_of_lt_of_le hw hbound)]
  have hs₁ : update T k (some f) ks = some rs := by rw [update_of_ne hne, hs]
  have hkf := update_self k (some f) T
  suffices hloop : (A.copyLoop rs f sz (sz / PGSIZE + 1) (1 * PGSIZE)).wp E Q s₁ by
    rwa [Nat.one_mul] at hloop
  refine hA.wp_copyLoop hown hs₁ hkf hne ?_ hbound
    (fun w _ hw => view_rootPage hroot (lt_of_lt_of_le hw hbound)) ?_ ?_ ?_ ?_
  · have := pageUp_le_div_add_one sz
    omega
  · rw [hcost]
    exact hleft.left hA hE (show f :: l₁ = [f] ++ l₁ from rfl) rfl le_rfl
  · rw [hcost, hall]
    intro hle
    refine hstop ?_
    rw [length_cons]
    omega
  · -- the tree goes back as a whole
    intro s₂ n used fs o l' hF hn hl' hown₂ href
    rw [wp_bind, wp_on]
    refine wp_freevm hown₂ hkf fun m₃ hfreed hown₃ => ?_
    refine hnull _ (f :: used) o l' ((treeFrames (A.get s₂).ram f).reverse ++ l') hF
      (by rw [hl', cons_append]) ?_
    rw [get_put]
    exact .of_refused h hk hm₁ hown hl' (by omega) href hown₂ hfreed hown₃
  · rw [hcost, hall]
    intro s' used fs l' hleft' hl' hu hpres hown' halloc
    have hload : ∀ w, 1 ≤ w → w < pageUp sz →
        ∃ c, view (A.get s₁).ram rs w = some c ∧ Loadable c := by
      intro w h1 h2
      obtain ⟨c, hc⟩ := Option.isSome_iff_exists.1 (hall.2 hpres w h1 h2)
      exact ⟨c, hc, loadable_of_view hc⟩
    refine hQ s' f (f :: used) l' (hleft.trans hleft' (Nat.le_succ _) ?_)
      (by rw [hl', cons_append]) ?_ hpres
      hown' (fun w hw => ?_) (fun g hg => ?_) ?_ fun i hi => ?_
    · rw [hl', length_append]
      exact Nat.le_add_left _ _
    · rw [length_cons, hu, Nat.add_comm]
    · rw [view_allocated halloc hown hkf hl' hroot hload hw, hsrc w hw]
    · rw [mem_cons, not_or, hl', mem_append, not_or] at hg
      rw [same_allocated halloc hroot hg.1 hg.2.1, hother g hg.1]
    · obtain ⟨e₁, e₂⟩ := halloc.ext.rest
      rw [e₁, e₂, halloc.granted, List.append_nil, hm₁]
      exact ⟨rfl, rfl, rfl⟩
    · rw [halloc.ext.upper i hi, hroot]

theorem wp_copyuvm {Q : Option ℕ → Mem → Prop} {ks : κ} {rs sz : ℕ} (h : Owned m l T S)
    (hs : T ks = some rs) (hk : T k = none) (hbound : pageUp sz ≤ UPAGES)
    (hE : Spare E (1 + ((copied m.ram rs 1 sz).length + tables (copied m.ram rs 1 sz))) l)
    (hstop : 1 + ((copied m.ram rs 1 sz).length + tables (copied m.ram rs 1 sz)) ≤ l.length →
      ¬(∀ w, 1 ≤ w → w < pageUp sz → (view m.ram rs w).isSome) →
      E "copyuvm: pte should exist" ∧ E "copyuvm: page not present")
    (hQ : ∀ m' f used l', l = used ++ l' →
      used.length = 1 + ((copied m.ram rs 1 sz).length + tables (copied m.ram rs 1 sz)) →
      (∀ w, 1 ≤ w → w < pageUp sz → (view m.ram rs w).isSome) →
      Owned m' l' (update T k (some f)) S →
      (∀ w, w < UPAGES → view m'.ram f w = if 1 ≤ w ∧ w < pageUp sz then view m.ram rs w
        else none) →
      (∀ g, g ∉ l → m'.ram g = m.ram g) →
      m'.kernelEnd = m.kernelEnd ∧ m'.kpdpt = m.kpdpt ∧ m'.granted = m.granted →
      Q (some f) m') :
    (copyuvm rs sz).wp E Q m := by
  rw [← kernel_copyuvm]
  refine (kernel_grants E).wp_copyuvm (s := m) h hs hk hbound hE hstop
    (fun _ _ _ _ _ => False.elim) ?_
  intro m' f used l' _ hl hu hall hown hview hsame hrest _
  exact hQ m' f used l' hl hu hall hown hview hsame hrest

end Xv6.Mm
