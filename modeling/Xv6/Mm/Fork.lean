import Xv6.Mm.Exhaustion

/-!
# The address space of a child

What `fork` gets from `copyuvm`.  If it is an address space, it is the parent's in frames of
its own; if it is null, the frame for a page may be lost, since `freevm` does not reach a
frame that `mappages` has failed to map.

* `Faithful`, `copyuvm_faithful` — the child's memory is the parent's.
* `NoLeak`, `copyuvm_noLeak_iff` — the refusals after which every frame is on the list again.
-/

namespace Xv6.Mm

open Lib Prog List

variable {κ σ : Type} {T : κ → Option ℕ} {S : σ → Option ℕ} {k ks : κ} {m m' : Mem}
  {l l' l'' used : List ℕ} {rs d f g n sz : ℕ} {o : Option ℕ} {s s' : Trial}

/-! ## A faithful copy -/

/-- The table `d` is a copy of `rs`, made of frames of the list `l`. -/
structure Faithful (l : List ℕ) (rs d : ℕ) (m m' : Mem) : Prop where
  /-- The same pages are mapped, with the same flags and the same bytes. -/
  pages : ∀ v < UPAGES, view m'.ram d v = view m.ram rs v
  /-- Every frame of the copy was free, so none is one of the parent's. -/
  fresh : ∀ p g, User p → node m'.ram d p = some g → g ∈ l ∧ ∀ q, User q → node m.ram rs q ≠ some g
  /-- Different paths of the copy lead to different frames. -/
  distinct : ∀ p q g, User p → User q → node m'.ram d p = some g → node m'.ram d q = some g → p = q
  /-- The kernel half. -/
  kernel : ∀ i, 256 ≤ i → (m'.ram d).entry i = if i = 256 then mkEntry m.kpdpt (PTE_P ||| PTE_W)
    else 0
  /-- The parent's frames keep their contents. -/
  parent : ∀ p g, User p → node m.ram rs p = some g → m'.ram g = m.ram g
  /-- So its pages are what they were. -/
  same : ∀ v < UPAGES, Unchanged m m' rs v
  /-- The two have no frame in common. -/
  apart : ∀ p q g, User p → User q → node m'.ram d p = some g → node m'.ram rs q ≠ some g

variable [DecidableEq κ] [DecidableEq σ]

/-- **`fork` copies the address space faithfully.**  For a parent that has exactly the pages of
its size, whatever `copyuvm` returns that is not null is a copy. -/
theorem copyuvm_faithful (h : Owned m l T S) (hs : T ks = some rs) (hk : T k = none)
    (hmaps : Exactly m.ram rs sz)
    (hkpdpt : m.kpdpt < 2 ^ 52) (hrun : (copyuvm rs (sz % 2 ^ 32)).run m = .done (some d) m') :
      Faithful l rs d m m' := by
  have hne : ks ≠ k := by
    rintro rfl
    rw [hs] at hk
    cases hk
  have hsz : sz % 2 ^ 32 = sz := Nat.mod_eq_of_lt ((hmaps.sz_lt h hs).trans (by decide))
  have hbound : pageUp sz ≤ UPAGES := (hmaps.pageUp_le h hs).trans (by decide)
  rw [hsz, ← kernel_copyuvm] at hrun
  have hpost := (kernel_grants anyPanic).wp_copyuvm (s := m)
    (Q := fun a m' => ∀ d, a = some d → Faithful l rs d m m') h hs hk hbound (Or.inl trivial)
    (fun _ _ => ⟨trivial, trivial⟩) (fun _ _ _ _ _ => False.elim) ?_
  · exact of_wp_of_run hpost hrun d rfl
  intro m' f used l' _ hl _ _ hown hview hsame hrest hupper d' hd
  obtain rfl : f = d' := Option.some.inj hd
  have hkf := Function.update_self k (some f) T
  have hparent :
    ∀ k' r' p g, T k' = some r' → User p → node m.ram r' p = some g → m'.ram g = m.ram g :=
    fun k' r' p g hk' hp hn => hsame g (h.not_free hk' hp hn)
  have hs' : Function.update T k (some f) ks = some rs := by rw [Function.update_of_ne hne, hs]
  refine ⟨fun v hv => ?_, fun p g hp hn => ?_, fun p q g hp hq => hown.path_inj hkf hp hq,
    fun i hi => ?_,
    fun p g => hparent ks rs p g hs, fun v => unchanged_congr fun p t => hparent ks rs p t hs,
      fun p q g hp hq hn hn' => ?_⟩
  · refine (hview v hv).trans ?_
    split_ifs with hin
    · rfl
    · exact (hmaps.eq_none hv hin).symm
  · have hg := h.mem_of_new hk hown.empty (fun _ => rfl) hrest.1 hparent hp hn
    exact ⟨hg, fun q hq hq' => h.not_free hs hq hq' hg⟩
  · refine (hupper i hi).trans ?_
    split_ifs with he
    · rw [he]
      exact Page.entry_setEntry_self (mkEntry_lt hkpdpt (by decide))
    · rw [rootPage, Page.entry_setEntry_of_ne he, Page.entry_fill_zero]
  · exact hne (hown.tree_inj hkf hs' hp hq hn hn').symm

omit [DecidableEq κ] [DecidableEq σ] in
/-- Of the first process, `copyuvm` copies one page. -/
theorem copied_first (hmaps : Exactly m.ram rs (2 * PGSIZE)) :
    copied m.ram rs 1 (2 * PGSIZE) = [1] := by
  have hpages : List.range' 1 (pageUp (2 * PGSIZE) - 1) = [1] := by decide
  rw [copied, hpages, takeWhile_cons, hmaps.isSome le_rfl (by decide)]
  rfl

/-- The first process forks. -/
theorem copyuvm_faithful_first :
    ∃ r m l d m', (firstSpace 1024).run (bootMem 1024) = .done (some r) m ∧
    (copyuvm r (2 * PGSIZE % 2 ^ 32)).run m = .done (some d) m' ∧ Faithful l r d m m' := by
  obtain ⟨r, m, l, hrun, hown, hmaps, hlen, hkpdpt⟩ := firstSpace_exactly
  have hsz : 2 * PGSIZE % 2 ^ 32 = 2 * PGSIZE := by decide
  have htables : tables [1] = 3 := by decide
  have hwp : (copyuvm r (2 * PGSIZE)).wp noPanic (fun a _ => ∃ d, a = some d) m := by
    refine wp_copyuvm hown (alone_true r) (alone_false r) (by decide) (Or.inr ?_)
      (fun _ hnot => absurd (fun w h1 h2 => hmaps.isSome h1 h2) hnot) fun m' d _ _ _ _ _ _ _ _ _ =>
        ⟨d, rfl⟩
    rw [copied_first hmaps, htables, length_singleton]
    omega
  obtain ⟨_, m', hcopy, d, rfl⟩ := (wp_noPanic_iff _).1 hwp
  refine ⟨r, m, l, d, m', hrun, by rw [hsz]; exact hcopy, ?_⟩
  exact copyuvm_faithful hown (alone_true r) (alone_false r) hmaps (by rw [hkpdpt]; decide)
    (by rw [hsz]; exact hcopy)

/-! ## What a refusal costs -/

/-- The frames on the list now are those that were there, each once. -/
def NoLeak (l : List ℕ) (m' : Mem) : Prop := ∃ l', Chain m'.ram m'.freelist l' ∧ l'.Perm l

theorem Chain.unique {ram : ℕ → Page} {v : ℕ} (h : Chain ram v l) (h' : Chain ram v l') :
    l = l' := by
  induction l generalizing v l' with
  | nil =>
    cases l' with
    | nil => rfl
    | cons f l' => exact absurd (h'.1.symm.trans h) h'.2.1
  | cons f l ih =>
    cases l' with
    | nil => exact absurd (h.1.symm.trans h') h.2.1
    | cons f' l' =>
      obtain rfl : f = f' := h.1.symm.trans h'.1
      rw [ih h.2.2 h'.2.2]

omit [DecidableEq κ] [DecidableEq σ] in
/-- A frame that is still in hand is lost. -/
theorem CopyRefused.noLeak_iff (h : CopyRefused T S l used l' o m') (hl : l.Nodup) :
    NoLeak l m' ↔ o = none := by
  constructor
  · rintro ⟨l₂, hchain, hperm⟩
    rw [← h.owned.chain.unique hchain] at hperm
    cases o with
    | none => rfl
    | some f =>
      have hf : f ∈ l' := hperm.mem_iff.2 (h.hand_mem f rfl)
      exact absurd rfl ((h.mem_iff f).1 hf).2
  · intro ho
    refine ⟨l', h.owned.chain, (perm_ext_iff_of_nodup h.owned.ledger.nodup hl).2 fun g => ?_⟩
    rw [h.mem_iff g, ho]
    simp

theorem tables_mono {i j : ℕ} (h : i ≤ j) :
    tables (List.range' 1 i) ≤ tables (List.range' 1 j) := by
  refine Finset.card_le_card fun p hp => ?_
  rw [mem_toFinset, mem_flatMap] at hp ⊢
  obtain ⟨v, hv, hp⟩ := hp
  rw [mem_range'_1] at hv
  exact ⟨v, mem_range'_1.2 (by omega), hp⟩

omit [DecidableEq κ] [DecidableEq σ] in
/-- The count of the frames taken tells whether one is in hand. -/
theorem CopyRefused.hand_iff (h : CopyRefused T S l used l' o m') :
    o = none ↔ used.length = 0 ∨ ∃ j, used.length = 1 + (j + tables (List.range' 1 j)) := by
  refine ⟨h.count_none, fun hcount => ?_⟩
  by_contra ho
  obtain ⟨j, h1, h2⟩ := h.count_some ho
  rcases hcount with hzero | ⟨i, hi⟩
  · omega
  · rcases Nat.lt_or_ge j i with hji | hij
    · have := tables_mono (show j + 1 ≤ i from hji)
      omega
    · have := tables_mono hij
      omega

/-- The call of `kalloc` that is refused first, with `l` on the list. -/
def IsFirstRefusal (refused : ℕ → Bool) (l : List ℕ) (n : ℕ) : Prop :=
  (∀ i < n, refused i = false) ∧ (refused n = true ∨ n = l.length) ∧ n ≤ l.length

theorem FirstRefused.isFirstRefusal {refused : ℕ → Bool} (h : FirstRefused refused l l')
    (hl : l = used ++ l') :
    IsFirstRefusal refused l used.length := by
  have hlen : l.length - l'.length = used.length := by
    rw [hl, length_append]
    omega
  obtain ⟨hno, hall⟩ := h
  rw [hlen] at hno hall
  refine ⟨hall, hno.imp_right fun hnil => ?_, ?_⟩
  · rw [hl, hnil, List.append_nil]
  · rw [hl, length_append]
    exact Nat.le_add_right _ _

theorem IsFirstRefusal.unique {refused : ℕ → Bool} {n' : ℕ} (h : IsFirstRefusal refused l n)
    (h' : IsFirstRefusal refused l n') : n = n' := by
  have hle : ∀ {a b}, IsFirstRefusal refused l a → IsFirstRefusal refused l b → a ≤ b := by
    intro a b ha hb
    by_contra hlt
    rcases hb.2.1 with hno | hend
    · rw [ha.1 b (by omega)] at hno
      cases hno
    · have := ha.2.2
      omega
  exact Nat.le_antisymm (hle h h') (hle h' h)

/-- How `copyuvm` ends: with null at the first refusal, or with every call granted. -/
theorem wp_copyuvm_refused {E : String → Prop} (h : Owned s.mem l T S) (hs : T ks = some rs)
    (hk : T k = none)
    (hsz : sz < 2 ^ 32) (hstop : ¬(∀ w, 1 ≤ w → w < pageUp sz → (view s.mem.ram rs w).isSome) →
      E "copyuvm: pte should exist" ∧ E "copyuvm: page not present") :
    (oracle.copyuvm rs sz).wp E (fun a s' =>
      (a = none → ∃ used o l', IsFirstRefusal s.refused l used.length ∧
        CopyRefused T S l used l' o s'.mem) ∧
      (a ≠ none → ∀ i < 1 + ((copied s.mem.ram rs 1 sz).length + tables (copied s.mem.ram rs 1 sz)),
        s.refused i = false)) s := by
  have hbound : pageUp sz ≤ UPAGES := by
    change (sz + 4095) / 4096 ≤ 2 ^ 35
    omega
  have hroom : AllGranted s.refused l s l := by
    rw [AllGranted, Nat.sub_self]
    exact ⟨le_rfl, fun i => by rw [Nat.zero_add], fun i hi => absurd hi (Nat.not_lt_zero i)⟩
  refine (oracle_grants_first E s.refused l).wp_copyuvm h hs hk hbound hroom
    (fun _ => hstop) (fun s' used o l' l'' hF hl hc => ⟨fun _ => ?_, fun hne => absurd rfl hne⟩) ?_
  · exact ⟨used, o, l'', hF.isFirstRefusal hl, hc⟩
  · intro s' f used l' hleft hl hu _ _ _ _ _ _
    refine ⟨fun hn => (nomatch hn), fun _ i hi => ?_⟩
    have hlen : l.length = used.length + l'.length := by rw [hl, length_append]
    have hall := (hleft used.length 0 hlen hroom).2.2
    refine hall i ?_
    rw [hlen, Nat.add_sub_cancel]
    exact hu ▸ hi

/-- **What `copyuvm` leaks.**  Let the call number `n` of `kalloc` be the first that is refused.
If `copyuvm` returns null, every frame it took is on the list again exactly if that call was
for the root, or for the frame of a page after the pages before it had all their tables. -/
theorem copyuvm_noLeak_iff (h : Owned s.mem l T S) (hs : T ks = some rs) (hk : T k = none)
    (hsz : sz < 2 ^ 32)
    (hn : IsFirstRefusal s.refused l n) (hrun : (oracle.copyuvm rs sz).run s = .done none s') :
    NoLeak l s'.mem ↔ n = 0 ∨ ∃ j, n = 1 + (j + tables (List.range' 1 j)) := by
  obtain ⟨used, o, l', hfirst, hc⟩ := (of_wp_of_run
    (wp_copyuvm_refused (E := anyPanic) h hs hk hsz fun _ => ⟨trivial, trivial⟩) hrun).1 rfl
  rw [hc.noLeak_iff h.ledger.nodup, hc.hand_iff, hn.unique hfirst]

/-- The first process forks, and one of the five calls of `kalloc` that takes is refused. -/
theorem run_copyuvm_refused (hn : n < 5) :
    ∃ r m l s', (firstSpace 1024).run (bootMem 1024) = .done (some r) m ∧
    Owned m l (alone r) (fun _ : Unit => none) ∧
    IsFirstRefusal (fun i => decide (i = n)) l n ∧
    (oracle.copyuvm r (2 * PGSIZE)).run ⟨m, fun i => decide (i = n)⟩ = .done none s' ∧
    (NoLeak l s'.mem ↔ n = 0 ∨ n = 1) := by
  obtain ⟨r, m, l, hrun, hown, hmaps, hlen, -⟩ := firstSpace_exactly
  have hfirst : IsFirstRefusal (fun i => decide (i = n)) l n :=
    ⟨fun i hi => decide_eq_false hi.ne, Or.inl (decide_eq_true rfl), by omega⟩
  obtain ⟨a, s', hcopy, hnull, hsome⟩ := (wp_noPanic_iff _).1 (wp_copyuvm_refused
    (s := ⟨m, fun i => decide (i = n)⟩) hown (alone_true r) (alone_false r)
    (show 2 * PGSIZE < 2 ^ 32 by decide)
    fun hnot => absurd (fun w h1 h2 => hmaps.isSome h1 h2) hnot)
  have htables : tables [1] = 3 := by decide
  cases a with
  | some d =>
    have hno := hsome (by simp) n (by
      change n < 1 + ((copied m.ram r 1 (2 * PGSIZE)).length + tables
        (copied m.ram r 1 (2 * PGSIZE)))
      rw [copied_first hmaps, htables, length_singleton]
      exact hn)
    exact absurd rfl (of_decide_eq_false hno)
  | none =>
    obtain ⟨used, o, l', hused, hc⟩ := hnull rfl
    refine ⟨r, m, l, s', hrun, hown, hfirst, hcopy, ?_⟩
    rw [hc.noLeak_iff hown.ledger.nodup, hc.hand_iff, ← hfirst.unique hused]
    refine or_congr_right ⟨?_, fun he => ⟨0, he⟩⟩
    rintro ⟨j, hj⟩
    rcases Nat.eq_zero_or_pos j with rfl | hpos
    · exact hj
    · have hmono : 3 ≤ tables (List.range' 1 j) := tables_mono (i := 1) hpos
      omega

/-- Null for the frame of its page: nothing is lost. -/
theorem copyuvm_noLeak_first : ∃ r m l s', (firstSpace 1024).run (bootMem 1024) = .done (some r) m ∧
    (oracle.copyuvm r (2 * PGSIZE)).run ⟨m, fun i => decide (i = 1)⟩ = .done none s' ∧
      NoLeak l s'.mem := by
  obtain ⟨r, m, l, s', hrun, hown, hfirst, hcopy, -⟩ := run_copyuvm_refused (n := 1) (by decide)
  refine ⟨r, m, l, s', hrun, hcopy,
    (copyuvm_noLeak_iff hown (alone_true r) (alone_false r) (by decide) hfirst hcopy).2
      (Or.inr ⟨0, rfl⟩)⟩

/-- Null for its first table: the frame for the page is neither freed nor reachable. -/
theorem copyuvm_leaks : ∃ r m l s', (firstSpace 1024).run (bootMem 1024) = .done (some r) m ∧
    Chain m.ram m.freelist l ∧
    (oracle.copyuvm r (2 * PGSIZE)).run ⟨m, fun i => decide (i = 2)⟩ = .done none s' ∧
      ¬NoLeak l s'.mem := by
  obtain ⟨r, m, l, s', hrun, hown, -, hcopy, hleak⟩ := run_copyuvm_refused (n := 2) (by decide)
  exact ⟨r, m, l, s', hrun, hown.chain, hcopy, fun hno => absurd (hleak.1 hno) (by decide)⟩

end Xv6.Mm
