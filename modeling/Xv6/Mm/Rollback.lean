import Xv6.Mm.Exhaustion

/-!
# Refused frames

What `allocuvm` and `copyuvm` leave when a call of `kalloc` answers with null: `oracle` refuses
whichever calls it is told to.

* `Owned.mem_released` — `deallocuvm` frees the frames of the pages it unmaps.
* `allocuvm_rolls_back` — `allocuvm` adds its pages or none, and `deallocuvm` takes them back.
-/

namespace Xv6.Mm

open Lib Prog List

variable {κ σ : Type} {T : κ → Option ℕ} {S : σ → Option ℕ} {k : κ} {m m' m'' : Mem}
  {l l' used fs vs : List ℕ} {r f g v w n oldsz newsz : ℕ} {p : List ℕ} {o : Option ℕ} {s : Trial}
  {E : String → Prop}

/-! ## Frames that come back -/

/-- A released page's frame is in no tree, and nothing else has left one. -/
theorem Owned.node_released (h : Owned m l T S) (hk : T k = some r) (hr : Released r vs m m')
    {k' : κ} {r' : ℕ} (hk' : T k' = some r') (hp : User p) :
    node m'.ram r' p = some g ↔ node m.ram r' p = some g ∧ ¬(k' = k ∧ p ∈ vs.map index) := by
  by_cases hkk : k' = k
  · subst hkk
    obtain rfl : r' = r := Option.some.inj (hk'.symm.trans hk)
    rw [hr.node p hp]
    split_ifs with hin <;> simp [hin]
  · have hsame : node m'.ram r' p = node m.ram r' p := by
      refine node_congr (fun q t hq ht => hr.same t fun q' hq' hn => hkk ?_) hp
      exact h.tree_inj hk' hk hq.1 hq' ht hn
    rw [hsame]
    simp [hkk]

/-- `deallocuvm` frees the frames of the pages it unmaps, and no others. -/
theorem Owned.mem_released (h : Owned m l T S) (hk : T k = some r) (hvs : ∀ v ∈ vs, v < UPAGES)
    (hr : Released r vs m m') (h' : Owned m' (fs ++ l) T S) :
    g ∈ fs ↔ ∃ v ∈ vs, node m.ram r (index v) = some g := by
  have hgiven : m'.Given g ↔ m.Given g := by rw [Mem.Given, Mem.Given, hr.rest.1]
  have hfree : ∀ {x}, spots m'.ram T S x = some g → g ∉ fs ++ l := fun hx => h'.ledger.apart _ g hx
  constructor
  · intro hg
    have hin : g ∈ fs ++ l := mem_append_left l hg
    have hl : g ∉ l := fun hgl => (nodup_append.1 h'.ledger.nodup).2.2 g hg g hgl rfl
    rcases (h.ledger.covered g).1 (hgiven.1 (h'.ledger.given_of_free hin)) with hgl | ⟨x, hx⟩
    · exact absurd hgl hl
    · -- it was in some place, and has left it
      cases x with
      | solo y => exact absurd hin (hfree (x := .solo y) hx)
      | tree k' q =>
        obtain ⟨r', hk', hq, hx⟩ := node_of_spots hx
        by_cases hgone : k' = k ∧ q ∈ vs.map index
        · obtain ⟨rfl, hq'⟩ := hgone
          obtain ⟨v, hv, rfl⟩ := mem_map.1 hq'
          obtain rfl : r' = r := Option.some.inj (hk'.symm.trans hk)
          exact ⟨v, hv, hx⟩
        · refine absurd hin (hfree (x := .tree k' q) ?_)
          rw [spots_tree hk' hq]
          exact (h.node_released hk hr hk' hq).2 ⟨hx, hgone⟩
  · rintro ⟨v, hv, hn⟩
    have huser := user_index (hvs v hv)
    rcases (h'.ledger.covered g).1 (hgiven.2 (h.given hk huser hn)) with hin | ⟨x, hx⟩
    · exact (mem_append.1 hin).resolve_right (h.not_free hk huser hn)
    · exfalso
      cases x with
      | solo y => exact h.ne_solo hk huser hn hx rfl
      | tree k' q =>
        obtain ⟨r', hk', hq, hx⟩ := node_of_spots hx
        obtain ⟨hold, hgone⟩ := (h.node_released hk hr hk' hq).1 hx
        obtain rfl := h.tree_inj hk' hk hq huser hold hn
        obtain rfl : r' = r := Option.some.inj (hk'.symm.trans hk)
        obtain rfl := h.path_inj hk hq huser hold hn
        exact hgone ⟨rfl, mem_map_of_mem hv⟩

variable [DecidableEq κ] [DecidableEq σ]

theorem Owned.drop (h : Owned m l T (hand S (some f))) : Owned (m.pushed f) (f :: l) T S := by
  refine of_empty ⟨h.chain.pushed h.free_lt h.hand_not_free (h.ne_zero h.hand_given), ?_,
    h.kernelEnd⟩
  have hspots : spots (m.pushed f).ram T (hand S none) = spots m.ram T (hand S none) := by
    refine funext (spots_congr fun k r p u hk hp hu i => child_congr ?_)
    change (Function.update m.ram f _ u).entry i = _
    rw [Function.update_of_ne]
    rintro rfl
    exact h.hand_fresh k r p hk hp hu
  rw [hspots]
  exact h.unhanded

omit [DecidableEq κ] [DecidableEq σ] in
theorem Owned.unchanged_drop (h : Owned m l T (hand S (some f))) (hk : T k = some r)
    (hw : w < UPAGES) :
    Unchanged m (m.pushed f) r w :=
  unchanged_congr (fun _ _ hp ht => Function.update_of_ne (h.ne_solo (x := none) hk hp ht rfl) _ _)
    hw

/-- What is left after a refusal is undone: the pages as they were, and the frames for pages
back on the list. -/
theorem wp_undo {Q : ℕ → Trial → Prop} (h : Owned m l T S) (hk : T k = some r) (hl : l = used ++ l')
    (hlt : pageUp oldsz + n < pageUp newsz) (hbound : pageUp newsz ≤ UPAGES)
    (hnone : ∀ w, pageUp oldsz ≤ w → w < UPAGES → view m.ram r w = none)
    (hown : Owned s.mem l' T (hand S o))
    (href : Refused r freshPage (List.range' (pageUp oldsz) n) (pageUp oldsz + n) used fs
      (fs ++ o.toList) o m s.mem)
    (hQ : ∀ s' l'', Owned s'.mem l'' T S → l'' ⊆ l →
      s'.mem.granted = m.granted ++ (fs ++ o.toList) →
      (fs ++ o.toList).Nodup → (∀ g ∈ fs ++ o.toList, g ∈ l ∧ g ∈ l'') →
        (∀ w < UPAGES, Unchanged m s'.mem r w) →
      Q 0 s') : (oracle.undo r oldsz newsz o).wp E Q s := by
  obtain ⟨P, hext⟩ := href.ext
  have hsize : oldsz < newsz := by
    have hlt' : (oldsz + 4095) / 4096 < (newsz + 4095) / 4096 :=
      lt_of_le_of_lt (Nat.le_add_right _ _) hlt
    omega
  have hsub : ∀ g ∈ fs ++ o.toList, g ∈ used := fun g hg => href.sub.subset hg
  have hnodup : (fs ++ o.toList).Nodup := by
    refine href.sub.nodup ?_
    rw [hl] at h
    exact (nodup_append.1 h.ledger.nodup).1
  unfold Allocator.undo
  rw [bind_eq, wp_bind, Allocator.wp_on]
  refine wp_deallocuvm hown hk hsize hbound fun m₁ fs₁ hr hown₁ _ => ?_
  have hrange := fun w => mem_pages (w := w) (pageUp oldsz) (pageUp newsz)
  -- the pages of the range are gone again, and the others have not changed
  have hsame : ∀ w < UPAGES, Unchanged m m₁ r w := by
    intro w hw
    by_cases hin : pageUp oldsz ≤ w ∧ w < pageUp newsz
    · refine unchanged_of_none (hnone w hin.1 hw) ?_
      rw [hr.view w hw, if_pos ((hrange w).2 hin)]
    · have hnot : w ∉ List.range' (pageUp oldsz) n := by
        rw [mem_range'_1]
        omega
      refine (hext.unchanged h hk hl hw hnot).trans (hr.unchanged (fun v hv => ?_) hw fun hmem =>
        hin ((hrange w).1 hmem))
      exact lt_of_lt_of_le ((hrange v).1 hv).2 hbound
  -- the frames that come back are those of the pages
  have hentry : ∀ {x g}, pte s.mem.ram r x = mkEntry g (freshPage x).1 →
    node s.mem.ram r (index x) = some g := by
    intro x g hpte
    have hfl : (freshPage x).1 < PGSIZE := loadable_freshPage.1
    rw [node_index, hpte, present_mkEntry hfl, loadable_freshPage.2, if_pos rfl,
      frameOf_mkEntry hfl]
  have hback : ∀ g, g ∈ fs₁ ↔ g ∈ fs := by
    intro g
    have hv : ∀ v ∈ List.range' (pageUp oldsz) (pageUp newsz - pageUp oldsz), v < UPAGES :=
      fun v hv =>
      lt_of_lt_of_le ((hrange v).1 hv).2 hbound
    rw [hown.mem_released hk hv hr hown₁]
    constructor
    · rintro ⟨x, hx, hn⟩
      by_cases hin : x ∈ List.range' (pageUp oldsz) n
      · obtain ⟨f', hf', hpte, -⟩ := href.mapped x hin
        rw [hentry hpte] at hn
        exact Option.some.inj hn ▸ hf'
      · have hno := hnone x ((hrange x).1 hx).1 (hv x hx)
        rw [(hext.unchanged h hk hl (hv x hx) hin).1, node_index, view_eq_none_iff.1 hno] at hn
        cases hn
    · intro hg
      obtain ⟨x, hx, hpte⟩ := href.onto g hg
      rw [mem_range'_1] at hx
      exact ⟨x, (hrange x).2 (by omega), hentry hpte⟩
  have hfs₁ : fs₁ ++ l' ⊆ l := by
    intro g hg
    rw [hl, mem_append]
    exact (mem_append.1 hg).imp_left fun hg => hsub g (mem_append_left _ ((hback g).1 hg))
  have htaken : ∀ g ∈ fs ++ o.toList, g ∈ l := fun g hg => by
    rw [hl]
    exact mem_append_left l' (hsub g hg)
  have hgranted : m₁.granted = m.granted ++ (fs ++ o.toList) := hr.rest.2.2.trans href.granted
  cases o with
  | none =>
    refine hQ _ (fs₁ ++ l') hown₁.of_empty hfs₁ hgranted hnodup
      (fun g hg => ⟨htaken g hg, ?_⟩) hsame
    rw [Option.toList_none, List.append_nil] at hg
    exact mem_append_left l' ((hback g).2 hg)
  | some f =>
    simp only [bind_eq, wp_bind, Allocator.wp_on]
    refine wp_kfree hown₁.hand_given ?_
    refine hQ _ (f :: (fs₁ ++ l')) hown₁.drop ?_ hgranted hnodup (fun g hg => ⟨htaken g hg, ?_⟩)
      fun w hw => (hsame w hw).trans (hown₁.unchanged_drop hk hw)
    · intro g hg
      rcases mem_cons.1 hg with rfl | hg
      · exact htaken g (mem_append_right fs (mem_singleton_self g))
      · exact hfs₁ hg
    · rcases mem_append.1 hg with hg | hg
      · exact mem_cons_of_mem f (mem_append_left l' ((hback g).2 hg))
      · rw [Option.toList_some, mem_singleton] at hg
        rw [hg]
        exact mem_cons_self

/-! ## `allocuvm` and its inverse -/

/-- `allocuvm` has failed: the pages are as they were, and the frames it took for pages, those
in `gs`, are back on the list, which has no frame twice. -/
structure RolledBack (r : ℕ) (l gs : List ℕ) (T : κ → Option ℕ) (S : σ → Option ℕ) (m m' : Mem) :
    Prop where
  /-- The leaf mappings and their contents. -/
  pages : ∀ w < UPAGES, Unchanged m m' r w
  /-- What it took for pages. -/
  granted : m'.granted = m.granted ++ gs
  once : gs.Nodup
  /-- It came from the list and is there again. -/
  freed : ∃ l', Owned m' l' T S ∧ l' ⊆ l ∧ ∀ g ∈ gs, g ∈ l ∧ g ∈ l'

/-- `allocuvm` has succeeded: the pages between the sizes are there, zero and the user's, and
`deallocuvm` takes exactly their frames back. -/
structure Added (r oldsz newsz : ℕ) (T : κ → Option ℕ) (S : σ → Option ℕ) (m m' : Mem) : Prop where
  /-- The pages between the sizes. -/
  fresh : ∀ w, pageUp oldsz ≤ w → w < pageUp newsz → view m'.ram r w = some (freshPage w)
  /-- The others. -/
  same : ∀ w < UPAGES, ¬(pageUp oldsz ≤ w ∧ w < pageUp newsz) → Unchanged m m' r w
  /-- The way back. -/
  back : ∃ l m'' fs, Owned m' l T S ∧ (deallocuvm r newsz oldsz).run m' = .done oldsz m'' ∧
    Owned m'' (fs ++ l) T S ∧
    (∀ g, g ∈ fs ↔ ∃ w, pageUp oldsz ≤ w ∧ w < pageUp newsz ∧ node m'.ram r (index w) = some g) ∧
    ∀ w < UPAGES, Unchanged m m'' r w

theorem Added.of_allocated (h : Owned m l T S) (hk : T k = some r) (hle : oldsz ≤ newsz)
    (hbound : pageUp newsz ≤ UPAGES) (hnone : ∀ w, pageUp oldsz ≤ w → w < UPAGES →
      view m.ram r w = none)
    (hl : l = used ++ l') (hown : Owned m' l' T S)
    (ha : Allocated r freshPage (List.range' (pageUp oldsz) (pageUp newsz - pageUp oldsz)) used fs
      fs m m') :
    Added r oldsz newsz T S m m' := by
  have hrange := fun w => mem_pages (w := w) (pageUp oldsz) (pageUp newsz)
  have hsame : ∀ w < UPAGES, ¬(pageUp oldsz ≤ w ∧ w < pageUp newsz) → Unchanged m m' r w :=
    fun w hw hnot =>
    ha.ext.unchanged h hk hl hw fun hin => hnot ((hrange w).1 hin)
  refine ⟨fun w h1 h2 => ?_, hsame, ?_⟩
  · rw [ha.view h hk hl (fun _ _ => loadable_freshPage) (lt_of_lt_of_le h2 hbound),
      if_pos ((hrange w).2 ⟨h1, h2⟩)]
  · rcases Nat.eq_or_lt_of_le hle with rfl | hlt
    · -- nothing to take back
      refine ⟨l', m', [], hown, ?_, hown, fun g => ?_, fun w hw => hsame w hw (by omega)⟩
      · rw [deallocuvm, if_pos le_rfl]
        rfl
      · simp only [not_mem_nil, false_iff]
        rintro ⟨w, h1, h2, -⟩
        omega
    · have hwp : (deallocuvm r newsz oldsz).wp noPanic (fun ret m'' => ret = oldsz ∧ ∃ fs,
          Released r (List.range' (pageUp oldsz) (pageUp newsz - pageUp oldsz)) m' m'' ∧
            Owned m'' (fs ++ l') T S) m' :=
        wp_deallocuvm hown hk hlt hbound fun m'' fs hr hown' _ => ⟨rfl, fs, hr, hown'⟩
      obtain ⟨ret, m'', hrun, hret, fs', hr, hown'⟩ := (wp_noPanic_iff _).1 hwp
      rw [hret] at hrun
      have hv : ∀ v ∈ List.range' (pageUp oldsz) (pageUp newsz - pageUp oldsz), v < UPAGES :=
        fun v hv =>
        lt_of_lt_of_le ((hrange v).1 hv).2 hbound
      refine ⟨l', m'', fs', hown, hrun, hown', fun g => ?_, fun w hw => ?_⟩
      · rw [hown.mem_released hk hv hr hown']
        simp only [hrange, and_assoc]
      · by_cases hin : pageUp oldsz ≤ w ∧ w < pageUp newsz
        · refine unchanged_of_none (hnone w hin.1 hw) ?_
          rw [hr.view w hw, if_pos ((hrange w).2 hin)]
        · exact (hsame w hw hin).trans (hr.unchanged hv hw fun hmem => hin ((hrange w).1 hmem))

/-- **`allocuvm` rolls back completely, and `deallocuvm` inverts it.**  Whichever calls of
`kalloc` are refused, `allocuvm` returns `0` with the pages as they were and the frames it took
for pages freed, or `newsz` with exactly the pages between the sizes added. -/
theorem allocuvm_rolls_back (h : Owned s.mem l T S) (hk : T k = some r) (hle : oldsz ≤ newsz)
    (hcanon : newsz < 2 ^ 47) (hnone : ∀ w, pageUp oldsz ≤ w → w < UPAGES →
      view s.mem.ram r w = none) :
    ∃ ret s', (oracle.allocuvm r oldsz newsz).run s = .done ret s' ∧ (ret = 0 ∨ ret = newsz) ∧
      (ret = 0 → 0 < newsz → ∃ gs, RolledBack r l gs T S s.mem s'.mem) ∧
      (ret = newsz → Added r oldsz newsz T S s.mem s'.mem) := by
  have hbound : pageUp newsz ≤ UPAGES := by
    change (newsz + 4095) / 4096 ≤ 2 ^ 35
    omega
  refine (wp_noPanic_iff _).1 ((oracle_grants _).wp_allocuvm h hk hle hbound
    (fun w h1 h2 => hnone w h1 (lt_of_lt_of_le h2 hbound)) trivial ?_ ?_)
  · intro s' n used fs o l' _ hlt hl hown href
    refine wp_undo h hk hl hlt hbound hnone hown href
      fun s'' l'' hown'' hsub hgr hnodup hfreed hpages => ?_
    refine ⟨Or.inl rfl, fun _ _ => ⟨_, hpages, hgr, hnodup, l'', hown'', hsub, hfreed⟩,
      fun he => ?_⟩
    have hpos : 0 < newsz := by
      have hlt' : 0 < (newsz + 4095) / 4096 := lt_of_le_of_lt (Nat.zero_le _) hlt
      omega
    omega
  · intro s' used fs l' _ hl _ hown ha
    refine ⟨Or.inr rfl, fun hzero hpos => absurd hpos (by omega), fun _ => ?_⟩
    exact .of_allocated h hk hle hbound hnone hl hown ha

/-- If one of the frames it needs is refused, `allocuvm` returns `0`. -/
theorem wp_allocuvm_refused {i : ℕ} (h : Owned s.mem l T S) (hk : T k = some r)
    (hle : oldsz ≤ newsz) (hbound : pageUp newsz ≤ UPAGES)
    (hnone : ∀ w, pageUp oldsz ≤ w → w < UPAGES → view s.mem.ram r w = none)
    (hi : i < cost s.mem.ram r (List.range' (pageUp oldsz) (pageUp newsz - pageUp oldsz)))
    (hno : s.refused i = true) :
    (oracle.allocuvm r oldsz newsz).wp noPanic (fun ret _ => ret = 0) s := by
  have hroom : AllGranted s.refused l s l := by
    refine ⟨le_rfl, fun i => by rw [Nat.sub_self, Nat.zero_add], fun i hi => ?_⟩
    rw [Nat.sub_self] at hi
    exact absurd hi (Nat.not_lt_zero i)
  refine (oracle_grants_first _ s.refused l).wp_allocuvm h hk hle hbound
    (fun w h1 h2 => hnone w h1 (lt_of_lt_of_le h2 hbound)) hroom ?_ ?_
  · intro s' n used fs o l' _ hlt hl hown href
    exact wp_undo h hk hl hlt hbound hnone hown href fun _ _ _ _ _ _ _ _ => rfl
  · intro s' used fs l' hleft hl hu _ _
    have hlen : l.length = used.length + l'.length := by rw [hl, length_append]
    have hall := (hleft used.length 0 hlen hroom).2.2 i (by
      rw [hlen, Nat.add_sub_cancel]
      exact hu ▸ hi)
    rw [hno] at hall
    cases hall

/-- The first process grows by two pages, and the frame for the second is refused: it is as it
was, and the frame for the first is free again. -/
theorem allocuvm_rolls_back_first :
    ∃ r m l s' gs, (firstSpace 1024).run (bootMem 1024) = .done (some r) m ∧
    (oracle.allocuvm r (2 * PGSIZE) (4 * PGSIZE)).run ⟨m, fun n => decide (n = 1)⟩ = .done 0 s' ∧
    RolledBack r l gs (alone r) (fun _ : Unit => none) m s'.mem := by
  obtain ⟨r, m, l, hrun, hown, hmaps, -, -⟩ := firstSpace_exactly
  obtain ⟨ret, s', hgrow, -, hback, -⟩ :=
    allocuvm_rolls_back (s := ⟨m, fun n => decide (n = 1)⟩) hown (alone_true r)
    (show 2 * PGSIZE ≤ 4 * PGSIZE by decide) (by decide) fun w h1 h2 => hmaps.beyond h1 h2
  have hpages : List.range' (pageUp (2 * PGSIZE)) (pageUp (4 * PGSIZE) - pageUp (2 * PGSIZE)) =
    [2, 3] := by decide
  have hcost : 1 < cost m.ram r
      (List.range' (pageUp (2 * PGSIZE)) (pageUp (4 * PGSIZE) - pageUp (2 * PGSIZE))) := by
    rw [hpages]
    exact Nat.lt_of_lt_of_le (show 1 < [2, 3].length by decide) (Nat.le_add_right _ _)
  have hwp := wp_allocuvm_refused (s := ⟨m, fun n => decide (n = 1)⟩) hown (alone_true r)
    (show 2 * PGSIZE ≤ 4 * PGSIZE by decide) (by decide) (fun w h1 h2 => hmaps.beyond h1 h2) hcost
    (show decide (1 = 1) = true from rfl)
  have hzero : ret = 0 := of_wp_of_run hwp hgrow
  obtain ⟨gs, hgs⟩ := hback hzero (by decide)
  rw [hzero] at hgrow
  exact ⟨r, m, l, s', gs, hrun, hgrow, hgs⟩

end Xv6.Mm
