import Xv6.Mm.Grant
import Xv6.Mm.Tree

/-!
# What `mappages` does to the translation

A page table read as a map from page numbers to present entries, and `mappages` on it with the
physical address in bytes, for a `kalloc` that answers with null or with a page that is not in
the table yet.  Nothing is assumed of the frames that the entries refer to.

* `Distinct` — the tables below the first `H` entries of the root are a tree of distinct pages.
* `wp_nextTable_supply`, `wp_walkpgdir_supply` — tables are added, and no entry of a page changes.
* `mappages_translates` — exactly the pages of the range change, for every outcome.
-/

namespace Xv6.Mm

open Lib List Function
open Prog hiding ret

/-- The loop of `mappages`, with `pa` in bytes; the first argument bounds the passes. -/
def Allocator.mapLoopAt {τ : Type} (A : Allocator τ) (pgdir last perm : ℕ) : ℕ → ℕ → ℕ → Prog τ ℤ
  | 0, _, _ => .panic "more passes than pages"
  | n + 1, a, pa => do
    let pte ← A.walkpgdir pgdir a
    match pte with
    | none => pure (-1)
    | some (t, i) => do
      A.on (.panicIf (fun m => present ((m.ram t).entry i)) "remap")
      A.on (.change fun m => m.setEntry t i (pa ||| perm ||| PTE_P))
      if a = last then pure 0
      else do
        let a ← add64 a PGSIZE
        let pa ← add64 pa PGSIZE
        A.mapLoopAt pgdir last perm n a pa

/-- `mappages`, with `pa` in bytes. -/
def Allocator.mappagesAt {τ : Type} (A : Allocator τ) (pgdir va size pa perm : ℕ) : Prog τ ℤ := do
  let a := PGROUNDDOWN va
  let sum ← add64 va size
  let top ← subU sum 1
  let last := PGROUNDDOWN top
  A.mapLoopAt pgdir last perm ((last - a) / PGSIZE + 1) a pa

/-- As long as the addresses fit, this is the loop over frames. -/
theorem Allocator.mapLoopAt_eq {τ : Type} (A : Allocator τ) (r perm : ℕ) (n v f : ℕ)
    (hv : (v + n + 1) * PGSIZE < 2 ^ 64)
    (hf : (f + n) * PGSIZE < 2 ^ 64) : A.mapLoopAt r ((v + n) * PGSIZE) perm (n + 1) (v * PGSIZE)
      (f * PGSIZE) =
      A.mapLoop r ((v + n) * PGSIZE) perm (n + 1) (v * PGSIZE) f := by
  have hentry : ∀ f : ℕ, f * PGSIZE ||| perm ||| PTE_P = mkEntry f (perm ||| PTE_P) := fun f => by
    rw [mkEntry, Nat.or_assoc]
  induction n generalizing v f with
  | zero =>
    refine congrArg (Prog.bind (A.walkpgdir r (v * PGSIZE))) (funext fun o => ?_)
    cases o with
    | none => rfl
    | some x => simp only [hentry, Nat.add_zero, if_true]
  | succ n ih =>
    have hne : v * PGSIZE ≠ (v + (n + 1)) * PGSIZE := by
      change v * 4096 ≠ (v + (n + 1)) * 4096
      omega
    have hstep : ∀ w, (w + 1) * PGSIZE < 2 ^ 64 → (add64 (w * PGSIZE) PGSIZE : Prog τ ℕ) =
      .ret ((w + 1) * PGSIZE) := by
      intro w hw
      rw [Nat.succ_mul] at hw ⊢
      exact add64_of_lt hw
    have hfits : ∀ {w u : ℕ}, w ≤ u → u * PGSIZE < 2 ^ 64 → w * PGSIZE < 2 ^ 64 := fun hwu hu =>
      lt_of_le_of_lt (Nat.mul_le_mul_right _ hwu) hu
    have ih' := ih (v + 1) (f + 1) (hfits (by omega) hv) (hfits (by omega) hf)
    rw [show v + 1 + n = v + (n + 1) by omega] at ih'
    refine congrArg (Prog.bind (A.walkpgdir r (v * PGSIZE))) (funext fun o => ?_)
    cases o with
    | none => rfl
    | some x =>
      simp only [hentry, if_neg hne, hstep v (hfits (by omega) hv), hstep f (hfits (by omega) hf),
        bind_eq, ret_bind, ih']

/-! ## Trees of tables -/

/-- Paths to the tables below the first `H` entries of the root. -/
structure Inner (H : ℕ) (p : List ℕ) : Prop where
  length : p.length ≤ 3
  lt : ∀ i ∈ p, i < 512
  head : ∀ i ∈ p.head?, i < H

/-- The tables are a tree of distinct pages. -/
def Distinct (H : ℕ) (ram : ℕ → Page) (r : ℕ) : Prop :=
  ∀ p q t, Inner H p → Inner H q → node ram r p = some t → node ram r q = some t → p = q

/-- What a page number translates to: its entry, where that is present. -/
def translate (ram : ℕ → Page) (r v : ℕ) : Option ℕ :=
  if present (pte ram r v) then some (pte ram r v) else none

variable {H r t i f v w n a pa perm e : ℕ} {p q : List ℕ} {ram ram' : ℕ → Page}

theorem Inner.of_append {s : List ℕ} (h : Inner H (p ++ s)) : Inner H p where
  length := by
    have hlen := h.length
    rw [length_append] at hlen
    omega
  lt i hi := h.lt i (mem_append_left s hi)
  head i hi := by
    cases p with
    | nil => cases hi
    | cons j p => exact h.head i hi

theorem inner_tablePath (hH : H ≤ 512) (hv : v < H * 512 ^ 3) : Inner H (tablePath v) where
  length := by simp [tablePath]
  lt i hi := by
    simp only [tablePath, mem_cons, not_mem_nil, or_false] at hi
    omega
  head i hi := by
    simp only [tablePath, head?_cons, Option.mem_def, Option.some.injEq] at hi
    have hlt : v / 512 ^ 3 < H := Nat.div_lt_of_lt_mul (by rw [Nat.mul_comm]; exact hv)
    rw [← hi, Nat.mod_eq_of_lt (by omega)]
    exact hlt

theorem page_inj (hH : H ≤ 512) (hv : v < H * 512 ^ 3) (hw : w < H * 512 ^ 3)
    (h : tablePath v = tablePath w) (hlast : v % 512 = w % 512) : v = w := by
  have hle : H * 512 ^ 3 ≤ 512 ^ 4 := by
    change H * 512 ^ 3 ≤ 512 * 512 ^ 3
    exact Nat.mul_le_mul_right _ hH
  exact index_inj (lt_of_lt_of_le hv hle) (lt_of_lt_of_le hw hle)
    (by rw [index_eq, index_eq, h, hlast])

/-- A table of zeros added at an entry that was not present. -/
theorem node_addTable (hd : Distinct H ram r) (hp : Inner H (p ++ [i])) (ht : node ram r p = some t)
    (hnone : child ram t i = none) (hfresh : ∀ q, Inner H q → node ram r q ≠ some f)
    (hzero : ∀ j, child ram' f j = none) (hset : child ram' t i = some f)
    (hsame : ∀ u j, u ≠ f → (u = t → j ≠ i) → child ram' u j = child ram u j) (hq : Inner H q) :
    node ram' r q = if q = p ++ [i] then some f else node ram r q := by
  have hpre : ∀ p' j s, q = p' ++ j :: s → Inner H p' :=
    fun p' j s he => (he ▸ hq : Inner H (p' ++ j :: s)).of_append
  rw [node, follow_setEdge (G := child ram) (P := Inner H) (N := (· = f))
    (fun _ _ => Inner.of_append)
    hp.of_append ht (fun q' hq' he => hd q' p t hq' hp.of_append (he.trans ht) ht)
    (fun q' u hq' hu he => hfresh q' hq' (he ▸ hu)) hsame hpre, hset]
  by_cases hin : p ++ [i] <+: q
  · rw [if_pos hin, Option.bind_some]
    obtain ⟨s, rfl⟩ := hin
    rw [append_assoc, drop_append, drop_of_length_le (Nat.le_succ _),
      Nat.add_sub_cancel_left, singleton_append, drop_succ_cons, drop_zero, nil_append]
    cases s with
    | nil => rw [if_pos rfl, follow_nil]
    | cons j s =>
      -- below the new table there is nothing, and nothing was there before
      have hold : node ram r (p ++ i :: j :: s) = none := by
        rw [node, follow_append, show follow (child ram) r p = some t from ht, Option.bind_some,
          follow_cons, hnone, Option.bind_none]
      rw [if_neg (by simp), hold, follow_cons, hzero, Option.bind_none]
  · rw [if_neg hin, if_neg]
    rintro rfl
    exact hin (prefix_refl _)

/-- An entry of a last-level table is not on the way to any table. -/
theorem node_setLeaf (hd : Distinct H ram r) (hp : Inner H p) (hlen : p.length = 3)
    (ht : node ram r p = some t)
    (hsame : ∀ u, u ≠ t → ram' u = ram u) (hq : Inner H q) : node ram' r q = node ram r q := by
  refine follow_congr fun p' j s he u hu => child_congr ?_
  rw [hsame u]
  rintro rfl
  have hp' := hd p' p u (he ▸ hq : Inner H (p' ++ j :: s)).of_append hp hu ht
  have hlen' := hq.length
  rw [he, hp', length_append, length_cons] at hlen'
  omega

/-! ## The allocator -/

/-- Memory, and what the next calls of `kalloc` return. -/
structure Supply where
  mem : Mem
  answers : ℕ → Option ℕ

/-- `kalloc` answers with null or with a page, whatever it is told. -/
def supply : Allocator Supply where
  get := Supply.mem
  put m s := { s with mem := m }
  part := ⟨fun _ _ => rfl, fun _ => rfl, fun _ _ _ => rfl⟩
  kalloc := do
    let p ← .look fun s => s.answers 0
    .change fun s => { s with answers := fun n => s.answers (n + 1) }
    pure p

/-- The pages to come are not in the table yet, and each of them comes once. -/
structure Fresh (H r : ℕ) (s : Supply) : Prop where
  lt : ∀ i f, s.answers i = some f → f < 2 ^ 52
  apart : ∀ i f, s.answers i = some f → ∀ q, Inner H q → node s.mem.ram r q ≠ some f
  once : ∀ i j f, s.answers i = some f → s.answers j = some f → i = j

/-- What a step leaves: a tree still, and every page with the entry it had. -/
structure KeepsPages (H r : ℕ) (s s' : Supply) : Prop where
  distinct : Distinct H s'.mem.ram r
  fresh : Fresh H r s'
  pte : ∀ v < H * 512 ^ 3, pte s'.mem.ram r v = pte s.mem.ram r v

theorem KeepsPages.trans {s s' s'' : Supply} (h : KeepsPages H r s s')
    (h' : KeepsPages H r s' s'') : KeepsPages H r s s'' :=
  ⟨h'.distinct, h'.fresh, fun v hv => (h'.pte v hv).trans (h.pte v hv)⟩

variable {s s' : Supply} {E : String → Prop}

theorem wp_kalloc_supply {Q : Option ℕ → Supply → Prop} :
    supply.kalloc.wp E Q s ↔ Q (s.answers 0) ⟨s.mem, fun n => s.answers (n + 1)⟩ := by
  simp only [supply, bind_eq, wp_bind, wp_look, wp_change, Prog.pure_eq, wp_ret]

/-- A call of `kalloc` behind which memory is as it was. -/
theorem Fresh.asked (h : Fresh H r s) : Fresh H r ⟨s.mem, fun n => s.answers (n + 1)⟩ where
  lt i := h.lt (i + 1)
  apart i := h.apart (i + 1)
  once i j f hi hj := Nat.succ_injective (h.once (i + 1) (j + 1) f hi hj)

/-- The first answer becomes a table. -/
theorem keepsPages_addTable (hd : Distinct H s.mem.ram r) (hs : Fresh H r s) (hH : H ≤ 512)
    (hp : Inner H (p ++ [i]))
    (ht : node s.mem.ram r p = some t) (hnone : present ((s.mem.ram t).entry i) = false)
      (hf : s.answers 0 = some f) :
    KeepsPages H r s ⟨(s.mem.write f (Page.fill 0)).setEntry t i
      (mkEntry f (PTE_P ||| PTE_W ||| PTE_U)), fun n => s.answers (n + 1)⟩ ∧
    node ((s.mem.write f (Page.fill 0)).setEntry t i (mkEntry f (PTE_P ||| PTE_W ||| PTE_U))).ram r
      (p ++ [i]) = some f := by
  have hfresh := hs.apart 0 f hf
  have htf : t ≠ f := by
    rintro rfl
    exact hfresh p hp.of_append ht
  have hentry : mkEntry f (PTE_P ||| PTE_W ||| PTE_U) < 2 ^ 64 :=
    mkEntry_lt (hs.lt 0 f hf) (by decide)
  generalize hram : ((s.mem.write f (Page.fill 0)).setEntry t i
    (mkEntry f (PTE_P ||| PTE_W ||| PTE_U))).ram = ram'
  have hf' : ram' f = Page.fill 0 := by
    rw [← hram]
    change update (update s.mem.ram f (Page.fill 0)) t _ f = _
    rw [update_of_ne htf.symm, update_self]
  have ht' : ram' t = (s.mem.ram t).setEntry i (mkEntry f (PTE_P ||| PTE_W ||| PTE_U)) := by
    rw [← hram]
    change update (update s.mem.ram f (Page.fill 0)) t
      ((update s.mem.ram f (Page.fill 0) t).setEntry i _) t = _
    rw [update_self, update_of_ne htf]
  have hother : ∀ u, u ≠ f → u ≠ t → ram' u = s.mem.ram u := by
    intro u hu hut
    rw [← hram]
    change update (update s.mem.ram f (Page.fill 0)) t _ u = _
    rw [update_of_ne hut, update_of_ne hu]
  have hnode :
    ∀ q, Inner H q → node ram' r q = if q = p ++ [i] then some f else node s.mem.ram r q := by
    intro q hq
    refine node_addTable hd hp ht ?_ hfresh (fun j => child_fill_zero hf') ?_ ?_ hq
    · rw [child, hnone]
      rfl
    · rw [child, ht', Page.entry_setEntry_self hentry, present_mkEntry (by decide),
        frameOf_mkEntry (by decide)]
      rfl
    · intro u j hu hij
      refine child_congr ?_
      by_cases hut : u = t
      · rw [hut, ht', Page.entry_setEntry_of_ne (hij hut)]
      · rw [hother u hu hut]
  refine ⟨⟨?_, ⟨fun j => hs.lt (j + 1), ?_, fun j k g hj hk => Nat.succ_injective
    (hs.once (j + 1) (k + 1) g hj hk)⟩, ?_⟩, by rw [hnode _ hp, if_pos rfl]⟩
  · intro q q' u hq hq' hu hu'
    rw [hram, hnode q hq] at hu
    rw [hram, hnode q' hq'] at hu'
    split_ifs at hu hu' with h₁ h₂ h₂
    · rw [h₁, h₂]
    · exact absurd (hu'.trans hu.symm) (hfresh q' hq')
    · exact absurd (hu.trans hu'.symm) (hfresh q hq)
    · exact hd q q' u hq hq' hu hu'
  · intro j g hg q hq hn
    rw [hram, hnode q hq] at hn
    split_ifs at hn with h₁
    · have h0 := hs.once 0 (j + 1) f hf (hg.trans hn.symm)
      omega
    · exact hs.apart (j + 1) g hg q hq hn
  · intro v hv
    have hpath := inner_tablePath hH hv
    rw [hram, pte, pte, hnode _ hpath]
    split_ifs with h₁
    · -- the page had no table
      have hold : node s.mem.ram r (tablePath v) = none := by
        rw [h₁, node, follow_concat ht, child, hnone]
        rfl
      rw [hold]
      simp only [hf']
      exact Page.entry_fill_zero _
    · cases hu : node s.mem.ram r (tablePath v) with
      | none => rfl
      | some u =>
        have huf : u ≠ f := fun he => hfresh _ hpath (he ▸ hu)
        have hut : u ≠ t := by
          rintro rfl
          have hlen := congrArg List.length (hd _ _ u hpath hp.of_append hu ht)
          have hle := hp.length
          rw [length_append, ← hlen] at hle
          change 3 + 1 ≤ 3 at hle
          omega
        simp only [hother u huf hut]

theorem wp_nextTable_supply (hd : Distinct H s.mem.ram r) (hs : Fresh H r s) (hH : H ≤ 512)
    (hp : Inner H (p ++ [i])) (ht : node s.mem.ram r p = some t) {Q : Option ℕ → Supply → Prop}
    (hQ : ∀ o s', KeepsPages H r s s' → (∀ c, o = some c → node s'.mem.ram r (p ++ [i]) = some c) →
      Q o s') :
    (supply.nextTable t i).wp E Q s := by
  rw [Allocator.nextTable]
  simp only [bind_eq, wp_bind, Allocator.wp_on_look]
  change Prog.wp E (if present ((s.mem.ram t).entry i) = true then _ else _) Q s
  by_cases hpres : present ((s.mem.ram t).entry i) = true
  · rw [if_pos hpres]
    refine hQ _ s ⟨hd, hs, fun _ _ => rfl⟩ fun c hc => ?_
    rw [node, follow_concat ht, child, if_pos hpres]
    exact hc
  · rw [if_neg hpres]
    simp only [wp_bind]
    rw [wp_kalloc_supply]
    cases hans : s.answers 0 with
    | none =>
      exact hQ _ _ ⟨hd, hs.asked, fun _ _ => rfl⟩ fun c hc => absurd hc.symm (Option.some_ne_none c)
    | some f =>
      obtain ⟨hg, hn⟩ := keepsPages_addTable hd hs hH hp ht (Bool.eq_false_iff.2 hpres) hans
      simp only [wp_bind, Allocator.wp_on_change]
      refine hQ _ _ hg fun c hc => ?_
      rw [← Option.some.inj hc]
      exact hn

theorem tablePath_pageOf (va : ℕ) :
    tablePath (pageOf va) = [PMX va, PDPX va, PDX va] ∧ pageOf va % 512 = PTX va := by
  have h : tablePath (pageOf va) ++ [pageOf va % 512] = [PMX va, PDPX va, PDX va] ++ [PTX va] :=
    index_pageOf va
  obtain ⟨h₁, h₂⟩ := append_inj h rfl
  exact ⟨h₁, head_eq_of_cons_eq h₂⟩

/-- The walk ends at the entry of the page, in a table of the tree. -/
theorem wp_walkpgdir_supply (hd : Distinct H s.mem.ram r) (hs : Fresh H r s) (hH : H ≤ 512)
    (hv : pageOf a < H * 512 ^ 3) : (supply.walkpgdir r a).wp E (fun o s' => KeepsPages H r s s' ∧
      ∀ c, o = some c → c.2 = pageOf a % 512 ∧ node s'.mem.ram r (tablePath (pageOf a)) = some c.1)
        s := by
  have hpath := inner_tablePath hH hv
  obtain ⟨htable, hlast⟩ := tablePath_pageOf a
  rw [htable] at hpath ⊢
  rw [hlast, Allocator.walkpgdir]
  simp only [bind_eq, wp_bind]
  have hone : Inner H ([] ++ [PMX a]) := hpath.of_append (s := [PDPX a, PDX a])
  have htwo : Inner H ([PMX a] ++ [PDPX a]) := hpath.of_append (s := [PDX a])
  refine wp_nextTable_supply hd hs hH hone rfl fun o₁ s₁ hg₁ hn₁ => ?_
  cases o₁ with
  | none => exact ⟨hg₁, fun c hc => absurd hc.symm (Option.some_ne_none c)⟩
  | some pdp =>
    simp only [wp_bind]
    refine wp_nextTable_supply hg₁.distinct hg₁.fresh hH htwo (hn₁ pdp rfl) fun o₂ s₂ hg₂ hn₂ => ?_
    cases o₂ with
    | none => exact ⟨hg₁.trans hg₂, fun c hc => absurd hc.symm (Option.some_ne_none c)⟩
    | some pd =>
      simp only [wp_bind]
      refine wp_nextTable_supply (p := [PMX a, PDPX a]) hg₂.distinct hg₂.fresh hH hpath (hn₂ pd rfl)
        fun o₃ s₃ hg₃ hn₃ => ?_
      cases o₃ with
      | none => exact ⟨(hg₁.trans hg₂).trans hg₃,
        fun c hc => absurd hc.symm (Option.some_ne_none c)⟩
      | some pgtab =>
        refine ⟨(hg₁.trans hg₂).trans hg₃, fun c hc => ?_⟩
        obtain rfl := Option.some.inj hc
        exact ⟨rfl, hn₃ pgtab rfl⟩

/-- The entry of a page is set, and that of no other. -/
theorem setLeaf (hd : Distinct H s.mem.ram r) (hs : Fresh H r s) (hH : H ≤ 512)
    (hv : v < H * 512 ^ 3) (ht : node s.mem.ram r (tablePath v) = some t) (he : e < 2 ^ 64) :
    Distinct H (s.mem.setEntry t (v % 512) e).ram r ∧
      Fresh H r { s with mem := s.mem.setEntry t (v % 512) e } ∧
    ∀ w < H * 512 ^ 3, pte (s.mem.setEntry t (v % 512) e).ram r w = if w = v then e
      else pte s.mem.ram r w := by
  have hpath := inner_tablePath hH hv
  have hother : ∀ u, u ≠ t → (s.mem.setEntry t (v % 512) e).ram u = s.mem.ram u := fun u hu =>
    update_of_ne hu _ _
  have hself : (s.mem.setEntry t (v % 512) e).ram t = (s.mem.ram t).setEntry (v % 512) e :=
    update_self ..
  have hnode : ∀ q, Inner H q → node (s.mem.setEntry t (v % 512) e).ram r q = node s.mem.ram r q :=
    fun q hq =>
    node_setLeaf hd hpath rfl ht hother hq
  refine ⟨fun p q u hp hq hu hu' => ?_, ⟨hs.lt, fun i f hf q hq hn => ?_, hs.once⟩, fun w hw => ?_⟩
  · rw [hnode p hp] at hu
    rw [hnode q hq] at hu'
    exact hd p q u hp hq hu hu'
  · rw [hnode q hq] at hn
    exact hs.apart i f hf q hq hn
  · have hpath' := inner_tablePath hH hw
    rw [pte, hnode _ hpath', pte]
    cases hu : node s.mem.ram r (tablePath w) with
    | none =>
      rw [if_neg]
      rintro rfl
      rw [ht] at hu
      cases hu
    | some u =>
      by_cases hut : u = t
      · subst hut
        have hsame := hd _ _ u hpath' hpath hu ht
        simp only [hself]
        split_ifs with hwv
        · rw [hwv, Page.entry_setEntry_self he]
        · exact Page.entry_setEntry_of_ne fun hlast => hwv (page_inj hH hw hv hsame hlast)
      · rw [if_neg]
        · simp only [hother u hut]
        · rintro rfl
          rw [ht] at hu
          exact hut (Option.some.inj hu).symm

/-! ## The loop -/

/-- What holds after any end of a run over the `n` pages from `v` on. -/
def Ends (H r v n pa perm : ℕ) (s : Supply) : Prog.Outcome Supply ℤ → Prop
  | .done ret s' => Distinct H s'.mem.ram r ∧
      (∀ w < H * 512 ^ 3, ¬(v ≤ w ∧ w < v + n) →
        translate s'.mem.ram r w = translate s.mem.ram r w) ∧
      (ret = -1 ∨ ret = 0 ∧ ∀ i < n, translate s'.mem.ram r (v + i) =
        some ((pa + i * PGSIZE) ||| perm ||| PTE_P))
  | .panicked msg s' => Distinct H s'.mem.ram r ∧
      (∀ w < H * 512 ^ 3, ¬(v ≤ w ∧ w < v + n) →
        translate s'.mem.ram r w = translate s.mem.ram r w) ∧
      msg = "attempt to add with overflow" ∧ 2 ^ 64 ≤ pa + (n - 1) * PGSIZE
  | .stuck _ => False

theorem translate_congr (h : pte ram' r v = pte ram r v) :
    translate ram' r v = translate ram r v := by
  rw [translate, translate, h]

/-- The entry that `mappages` stores is present. -/
theorem translate_stored (h : pte ram r v = e ||| PTE_P) :
    translate ram r v = some (e ||| PTE_P) := by
  have hpres : present (e ||| PTE_P) = true := by
    rw [present, Nat.testBit_or]
    exact Bool.or_true _
  rw [translate, h, if_pos hpres]

/-- What the first pass has done is seen at the end of the others. -/
theorem Ends.cons {out : Prog.Outcome Supply ℤ} (hn : 1 ≤ n)
    (hfirst : ∀ w < H * 512 ^ 3, w ≠ v → translate s'.mem.ram r w = translate s.mem.ram r w)
    (hv : v < H * 512 ^ 3) (hset : translate s'.mem.ram r v = some (pa ||| perm ||| PTE_P))
    (h : Ends H r (v + 1) n (pa + PGSIZE) perm s' out) : Ends H r v (n + 1) pa perm s out := by
  cases out with
  | stuck s'' => exact h
  | done ret s'' =>
    obtain ⟨hd, hout, hret⟩ := h
    refine ⟨hd, fun w hw hin => ?_, hret.imp_right fun hret => ⟨hret.1, fun i hi => ?_⟩⟩
    · rw [hout w hw (by omega), hfirst w hw (by omega)]
    · cases i with
      | zero =>
        rw [Nat.add_zero, hout v hv (by omega), hset, Nat.zero_mul, Nat.add_zero]
      | succ i =>
        have hi' := hret.2 i (by omega)
        rwa [show v + 1 + i = v + (i + 1) by omega, show pa + PGSIZE + i * PGSIZE =
          pa + (i + 1) * PGSIZE by
          rw [Nat.succ_mul]; omega] at hi'
  | panicked msg s'' =>
    obtain ⟨hd, hout, hmsg, hlt⟩ := h
    refine ⟨hd, fun w hw hin => ?_, hmsg, ?_⟩
    · rw [hout w hw (by omega), hfirst w hw (by omega)]
    · obtain ⟨n, rfl⟩ : ∃ k, n = k + 1 := ⟨n - 1, by omega⟩
      rw [Nat.add_sub_cancel] at hlt ⊢
      rw [Nat.succ_mul]
      omega

theorem run_on_panicIf {α : Type} {c : Mem → Bool} {msg : String} {k : Unit → Prog Supply α}
    (h : c s.mem = false) : ((supply.on (.panicIf c msg)).bind k).run s = (k ()).run s := by
  refine run_bind_of_done ?_ k
  change (Prog.onPart supply.get supply.put (if c s.mem then Prog.panic msg else Prog.ret ())).run
    s = _
  rw [h]
  rfl

theorem run_on_change {α : Type} {u : Mem → Mem} {k : Unit → Prog Supply α} :
    ((supply.on (.change u)).bind k).run s = (k ()).run { s with mem := u s.mem } := rfl

theorem add64_overflow {σ : Type} {b : ℕ} (h : ¬a + b < 2 ^ 64) :
    (add64 a b : Prog σ ℕ) = .panic "attempt to add with overflow" := by
  rw [add64, if_neg h]

/-- One pass over a page that is not present: a table is refused, or the entry is stored and
the loop goes on. -/
theorem run_pass (last : ℕ) (hd : Distinct H s.mem.ram r) (hs : Fresh H r s) (hH : H ≤ 512)
    (hv : v < H * 512 ^ 3)
    (hpa : pa < 2 ^ 64) (hperm : perm < 2 ^ 64) (hnone : translate s.mem.ram r v = none) :
    (∃ s₁, KeepsPages H r s s₁ ∧ (supply.mapLoopAt r last perm (n + 1) (v * PGSIZE) pa).run s =
      .done (-1) s₁) ∨
    ∃ s₂, Distinct H s₂.mem.ram r ∧ Fresh H r s₂ ∧
      (∀ w < H * 512 ^ 3, pte s₂.mem.ram r w = if w = v then pa ||| perm ||| PTE_P
        else pte s.mem.ram r w) ∧
      (supply.mapLoopAt r last perm (n + 1) (v * PGSIZE) pa).run s =
        (if v * PGSIZE = last then .ret 0 else (add64 (v * PGSIZE) PGSIZE).bind fun a =>
          (add64 pa PGSIZE).bind fun pa => supply.mapLoopAt r last perm n a pa : Prog Supply ℤ).run
            s₂ := by
  have hpage : pageOf (v * PGSIZE) = v := Nat.mul_div_cancel v (by decide)
  obtain ⟨o, s₁, hwalk, hg, hnode⟩ := (wp_noPanic_iff _).1
    (wp_walkpgdir_supply (a := v * PGSIZE) hd hs hH (by rw [hpage]; exact hv))
  rw [hpage] at hnode
  rw [Allocator.mapLoopAt, bind_eq, run_bind_of_done hwalk]
  cases o with
  | none => exact .inl ⟨s₁, hg, rfl⟩
  | some c =>
    obtain ⟨t, i⟩ := c
    obtain ⟨hi, ht⟩ := hnode (t, i) rfl
    obtain rfl : i = v % 512 := hi
    have he : pa ||| perm ||| PTE_P < 2 ^ 64 :=
      Nat.or_lt_two_pow (Nat.or_lt_two_pow hpa hperm) (by decide)
    obtain ⟨hd', hs', hpte⟩ := setLeaf hg.distinct hg.fresh hH hv ht he
    -- the entry is the one of the page, which is not present
    have habsent : present ((s₁.mem.ram t).entry (v % 512)) = false := by
      rw [← pte_of_node ht, hg.pte v hv]
      rw [translate] at hnone
      split_ifs at hnone with hp
      exact Bool.eq_false_iff.2 hp
    refine .inr ⟨{ s₁ with mem := s₁.mem.setEntry t (v % 512) (pa ||| perm ||| PTE_P) }, hd', hs',
      fun w hw => ?_, ?_⟩
    · rw [hpte w hw, hg.pte w hw]
    · simp only [bind_eq]
      rw [run_on_panicIf habsent, run_on_change]
      rfl

/-- The loop over `n + 1` pages, none of which is present. -/
theorem run_mapLoopAt (hd : Distinct H s.mem.ram r) (hs : Fresh H r s) (hH : H ≤ 512)
    (hv : v + n < H * 512 ^ 3) (hcanon : v + n < UPAGES) (hpa : pa < 2 ^ 64) (hperm : perm < 2 ^ 64)
    (hnone : ∀ w, v ≤ w → w ≤ v + n → translate s.mem.ram r w = none) :
    Ends H r v (n + 1) pa perm s
      ((supply.mapLoopAt r ((v + n) * PGSIZE) perm (n + 1) (v * PGSIZE) pa).run s) := by
  induction n generalizing v pa s with
  | zero =>
    rw [Nat.add_zero] at hv
    rw [Nat.add_zero v]
    rcases run_pass (v * PGSIZE) (n := 0) hd hs hH hv hpa hperm (hnone v le_rfl (by omega)) with
      ⟨s₁, hg, hrun⟩ | ⟨s₂, hd', -, hpte, hrun⟩
    · rw [hrun]
      exact ⟨hg.distinct, fun w hw _ => translate_congr (hg.pte w hw), Or.inl rfl⟩
    · rw [hrun, if_pos rfl]
      refine ⟨hd', fun w hw hin => translate_congr ?_, Or.inr ⟨rfl, fun i hi => ?_⟩⟩
      · rw [hpte w hw, if_neg (by omega)]
      · obtain rfl : i = 0 := by omega
        rw [Nat.zero_mul]
        exact translate_stored ((hpte v hv).trans (if_pos rfl))
  | succ n ih =>
    have hv' : v < H * 512 ^ 3 := by omega
    have hne : v * PGSIZE ≠ (v + (n + 1)) * PGSIZE := by
      change v * 4096 ≠ (v + (n + 1)) * 4096
      omega
    rcases run_pass ((v + (n + 1)) * PGSIZE) (n := n + 1) hd hs hH hv' hpa hperm
      (hnone v le_rfl (by omega)) with
      ⟨s₁, hg, hrun⟩ | ⟨s₂, hd', hs', hpte, hrun⟩
    · rw [hrun]
      exact ⟨hg.distinct, fun w hw _ => translate_congr (hg.pte w hw), Or.inl rfl⟩
    · have hother : ∀ w < H * 512 ^ 3, w ≠ v → translate s₂.mem.ram r w = translate s.mem.ram r w :=
        fun w hw hwv =>
        translate_congr ((hpte w hw).trans (if_neg hwv))
      have hsum : v * PGSIZE + PGSIZE < 2 ^ 64 := by
        change v + (n + 1) < 2 ^ 35 at hcanon
        change v * 4096 + 4096 < 2 ^ 64
        omega
      rw [hrun, if_neg hne, add64_of_lt hsum, ret_bind, ← Nat.succ_mul]
      by_cases hover : pa + PGSIZE < 2 ^ 64
      · rw [add64_of_lt hover, ret_bind]
        have hrest := ih (v := v + 1) hd' hs' (by omega)
          (by change v + (n + 1) < 2 ^ 35 at hcanon; change v + 1 + n < 2 ^ 35; omega) hover
          fun w h1 h2 => (hother w (by omega) (by omega)).trans (hnone w (by omega) (by omega))
        rw [show v + 1 + n = v + (n + 1) by omega] at hrest
        exact hrest.cons (by omega) hother hv' (translate_stored ((hpte v hv').trans (if_pos rfl)))
      · rw [add64_overflow hover]
        refine ⟨hd', fun w hw hin => hother w hw (by omega), rfl, ?_⟩
        rw [Nat.add_sub_cancel, Nat.succ_mul]
        omega

/-- **`mappages` changes the translation exactly on its range.**  For every table whose pages are a
tree, every `kalloc` that returns null or a page that is not in the table, and every range below
`2 ^ 47` without a present page: `mappages` does not run into a page that is mapped; whatever the
outcome, the pages outside the range translate as before and the tables are still a tree; and if
it returns `0`, the `i`-th page of the range translates to `(pa + i * PGSIZE) | perm | PTE_P`. -/
theorem mappages_translates (va size : ℕ) (hd : Distinct H s.mem.ram r) (hs : Fresh H r s)
    (hlo : 256 ≤ H)
    (hH : H ≤ 512) (hsize : 1 ≤ size) (hrange : va + size ≤ 2 ^ 47) (hpa : pa < 2 ^ 64)
      (hperm : perm < 2 ^ 64)
    (hnone : ∀ w, pageOf va ≤ w → w ≤ pageOf (va + size - 1) → translate s.mem.ram r w = none) :
    Ends H r (pageOf va) (pageOf (va + size - 1) - pageOf va + 1) pa perm s
      ((supply.mappagesAt r va size pa perm).run s) := by
  have hle : pageOf va ≤ pageOf (va + size - 1) := Nat.div_le_div_right (by omega)
  have htop : pageOf (va + size - 1) < UPAGES := by
    change (va + size - 1) / 4096 < 2 ^ 35
    omega
  have hpages : UPAGES ≤ H * 512 ^ 3 := by
    change 256 * 512 ^ 3 ≤ H * 512 ^ 3
    exact Nat.mul_le_mul_right _ hlo
  have hcount : (PGROUNDDOWN (va + size - 1) - PGROUNDDOWN va) / PGSIZE =
    pageOf (va + size - 1) - pageOf va := by
    change ((va + size - 1) / 4096 * 4096 - va / 4096 * 4096) / 4096 =
      (va + size - 1) / 4096 - va / 4096
    omega
  have hsplit : pageOf va + (pageOf (va + size - 1) - pageOf va) =
    pageOf (va + size - 1) := by omega
  have hloop := run_mapLoopAt (v := pageOf va) (n := pageOf (va + size - 1) - pageOf va) hd hs hH
    (by omega) (by omega) hpa hperm fun w h1 h2 => hnone w h1 (by omega)
  rw [hsplit] at hloop
  rw [Allocator.mappagesAt, add64_of_lt (by omega), bind_eq, ret_bind,
    subU_of_le (by omega), bind_eq, ret_bind]
  dsimp only
  rw [hcount]
  exact hloop

/-- A root of zeros in frame `1`, and three frames for tables. -/
def zeroTable : Supply :=
  ⟨⟨fun _ => Page.fill 0, 0, 1, 0, []⟩, fun n => if n < 3 then some (n + 2) else none⟩

theorem node_zeroTable (q : List ℕ) (f : ℕ) (h : node zeroTable.mem.ram 1 q = some f) :
    q = [] ∧ f = 1 := by
  cases q with
  | nil => exact ⟨rfl, (Option.some.inj h).symm⟩
  | cons i q =>
    rw [node, follow_cons, child_fill_zero rfl] at h
    cases h

/-- A page is mapped into it. -/
theorem mappages_translates_zero : Ends 512 1 1 1 (9 * PGSIZE) (PTE_W ||| PTE_U) zeroTable
    ((supply.mappagesAt 1 PGSIZE PGSIZE (9 * PGSIZE) (PTE_W ||| PTE_U)).run zeroTable) := by
  refine mappages_translates PGSIZE PGSIZE ?_ ⟨fun i f hf => ?_, fun i f hf q _ hn => ?_,
    fun i j f hi hj => ?_⟩
    (by decide) (by decide) (by decide) (by decide) (by decide) (by decide) fun w _ _ => ?_
  · intro p q t _ _ hp hq
    rw [(node_zeroTable p t hp).1, (node_zeroTable q t hq).1]
  · change (if i < 3 then some (i + 2) else none) = some f at hf
    split_ifs at hf with hi
    have he : i + 2 = f := Option.some.inj hf
    omega
  · change (if i < 3 then some (i + 2) else none) = some f at hf
    split_ifs at hf with hi
    have he : i + 2 = f := Option.some.inj hf
    have hone := (node_zeroTable q f hn).2
    omega
  · change (if i < 3 then some (i + 2) else none) = some f at hi
    change (if j < 3 then some (j + 2) else none) = some f at hj
    split_ifs at hi hj
    have h₁ : i + 2 = f := Option.some.inj hi
    have h₂ : j + 2 = f := Option.some.inj hj
    omega
  · have hnone : node zeroTable.mem.ram 1 (tablePath w) = none := by
      cases h : node zeroTable.mem.ram 1 (tablePath w) with
      | none => rfl
      | some t => exact absurd (node_zeroTable _ t h).1 (by simp [tablePath])
    have hpte : pte zeroTable.mem.ram 1 w = 0 := by rw [pte, hnone]
    rw [translate, hpte]
    rfl

end Xv6.Mm
