import Xv6.Mm.Copy

/-!
# Running out of memory

The callers of `kalloc` test for null, but `kalloc` panics when the list is empty.  So a call
that needs more frames than there are takes the kernel down with it, and one that finds them
all never sees the failure it is prepared for.

* `growproc`, `forkPages`, `pipePage` — what `growproc`, `fork` and `pipealloc` do to memory.
* `ends_by_need` — a call ends by what it needs and what is free.
* `exhaustion_panics` — the three calls, in every state in which the frames are accounted for.
-/

namespace Xv6.Mm

open Lib Prog List Function

/-! ## The calls -/

/-- `growproc`, for a process of this root and size: what it returns, and the new size. -/
def growproc (pgdir sz : ℕ) (n : ℤ) : Prog Mem (ℤ × ℕ) :=
  if 0 < n then do
    let newsz ← add64 sz n.toNat
    let sz' ← allocuvm pgdir sz newsz
    if sz' = 0 then pure (-1, sz) else pure (0, sz')
  else if n < 0 then do
    let sz' ← deallocuvm pgdir sz ((sz + n) % 2 ^ 64).toNat
    if sz' = 0 then pure (-1, sz) else pure (0, sz')
  else pure (0, sz)

/-- The pages of `fork`: the kernel stack, on which `allocproc` puts what `forkret` needs, and
the copy of the parent's memory, of `sz as uint` bytes. -/
def forkPages (stack : Page) (pgdir sz : ℕ) : Prog Mem (Option (ℕ × ℕ)) := do
  let kstack ← kalloc
  match kstack with
  | none => pure none
  | some ks => do
    .change fun m => m.write ks stack
    let d ← copyuvm pgdir (sz % 2 ^ 32)
    match d with
    | none => do
      kfree ks
      pure none
    | some d => pure (some (ks, d))

/-- The page of `pipealloc`. -/
def pipePage : Prog Mem (Option ℕ) := kalloc

/-- The program ends in the panic of `kalloc`. -/
def OutOfMemory {α : Type} (p : Prog Mem α) (m : Mem) : Prop :=
  ∃ m', p.run m = .panicked "Out of memory!" m'

variable {κ σ : Type} {T : κ → Option ℕ} {S : σ → Option ℕ} {k k' : κ} {m : Mem} {l : List ℕ}
  {r sz : ℕ} {E : String → Prop}

/-! ## What decides how they end -/

/-- A call that returns exactly when its frames are free, and else runs out. -/
theorem ends_by_need {α : Type} {p : Prog Mem α} {Q : α → Mem → Prop} {need : ℕ}
    (hp : ∀ E, Spare E need l → p.wp E (fun a m' => need ≤ l.length ∧ Q a m') m) :
    if need ≤ l.length then ∃ a m', p.run m = .done a m' ∧ Q a m' else OutOfMemory p m := by
  split_ifs with hneed
  · obtain ⟨a, m', hrun, -, hQ⟩ := (wp_noPanic_iff p).1 (hp noPanic (Or.inr hneed))
    exact ⟨a, m', hrun, hQ⟩
  · rcases (wp_iff_run p).1 (hp (fun msg => msg = "Out of memory!") (Or.inl rfl)) with
      ⟨a, m', -, hle, -⟩ | ⟨msg, m', hrun, rfl⟩
    · exact absurd hle hneed
    · exact ⟨m', hrun⟩

theorem need_le {used l' : List ℕ} {need : ℕ} (hl : l = used ++ l') (hused : used.length = need) :
    need ≤ l.length := by
  rw [hl, length_append, hused]
  exact Nat.le_add_right _ _

/-- There are no more frames than memory has. -/
theorem Owned.length_le (h : Owned m l T S) : l.length ≤ PHYSTOP / PGSIZE := by
  have hsub : l ⊆ List.range (PHYSTOP / PGSIZE) := fun f hf =>
    mem_range.2 (h.ledger.given_of_free hf).2
  have hle := (h.ledger.nodup.subperm hsub).length_le
  rwa [length_range] at hle

variable [DecidableEq κ] [DecidableEq σ]

/-- The frames `growproc` needs for the pages it adds. -/
def growCost (m : Mem) (r sz n : ℕ) : ℕ :=
  cost m.ram r (List.range' (pageUp sz) (pageUp (sz + n) - pageUp sz))

/-- The frames `fork` needs: the kernel stack, the root, the pages and their tables. -/
def forkCost (m : Mem) (r sz : ℕ) : ℕ :=
  1 + (1 + ((copied m.ram r 1 (sz % 2 ^ 32)).length + tables (copied m.ram r 1 (sz % 2 ^ 32))))

theorem wp_growproc (h : Owned m l T S) (hk : T k = some r) {n : ℕ} (hn : 0 < n)
    (hbound : pageUp (sz + n) ≤ UPAGES) (hnone : ∀ w, pageUp sz ≤ w → w < UPAGES →
      view m.ram r w = none)
    (hE : Spare E (growCost m r sz n) l) :
    (growproc r sz n).wp E (fun a _ => growCost m r sz n ≤ l.length ∧ a = (0, sz + n)) m := by
  have hlt : sz + n < 2 ^ 64 := by
    change (sz + n + 4095) / 4096 ≤ 2 ^ 35 at hbound
    omega
  rw [growproc, if_pos (Int.natCast_pos.2 hn), Int.toNat_natCast, add64_of_lt hlt]
  simp only [bind_eq, ret_bind, wp_bind]
  refine wp_allocuvm h hk (Nat.le_add_right _ _) hbound
    (fun w hw hw' => hnone w hw (lt_of_lt_of_le hw' hbound)) hE
    fun m' used fs l' hl hused _ _ => ?_
  rw [if_neg (by omega)]
  exact ⟨need_le hl hused, rfl⟩

/-- More pages than there are frames are too many. -/
theorem growproc_out (h : Owned m l T S) (hk : T k = some r) {n : ℕ} (hn : 0 < n)
    (hbound : pageUp (sz + n) ≤ UPAGES) (hnone : ∀ w, pageUp sz ≤ w → w < UPAGES →
      view m.ram r w = none)
    (hmany : pageUp sz + l.length < pageUp (sz + n)) : OutOfMemory (growproc r sz n) m := by
  have hends := ends_by_need fun E hE => wp_growproc (E := E) h hk hn hbound hnone hE
  have hneed : ¬ growCost m r sz n ≤ l.length := by
    rw [growCost, cost, length_range']
    omega
  rwa [if_neg hneed] at hends

/-- Past the user half there is not enough memory. -/
theorem growproc_beyond (h : Owned m l T S) (hk : T k = some r) {n : ℕ} (hn : 0 < n)
    (hsz : sz < 2 ^ 46) (hlt : sz + n < KERNBASE) (hbound : ¬ pageUp (sz + n) ≤ UPAGES)
    (hnone : ∀ w, pageUp sz ≤ w → w < UPAGES → view m.ram r w = none) :
      OutOfMemory (growproc r sz n) m := by
  have hfree : l.length ≤ 57344 := h.length_le
  have hlt' : sz + n < 2 ^ 64 := lt_trans hlt (by decide)
  have hwp : (growproc r sz n).wp (fun msg => msg = "Out of memory!") (fun _ _ => False) m := by
    rw [growproc, if_pos (Int.natCast_pos.2 hn), Int.toNat_natCast, add64_of_lt hlt']
    simp only [bind_eq, ret_bind, wp_bind]
    have hup : pageUp sz ≤ 2 ^ 34 := by
      change (sz + 4095) / 4096 ≤ 2 ^ 34
      omega
    have hU : pageUp sz + l.length < UPAGES := by
      change _ < 2 ^ 35
      omega
    exact wp_allocuvm_out h hk rfl hlt (hU.trans (not_le.1 hbound)) hU hnone
  rcases (wp_iff_run _).1 hwp with ⟨_, _, -, hf⟩ | ⟨msg, m', hrun, rfl⟩
  · exact hf.elim
  · exact ⟨m', hrun⟩

/-- A size past `KERNBASE` is refused. -/
theorem growproc_refused {n : ℕ} (hn : 0 < n) (hle : KERNBASE ≤ sz + n) (hlt : sz + n < 2 ^ 64) :
    (growproc r sz n).run m = .done (-1, sz) m := by
  rw [growproc, if_pos (Int.natCast_pos.2 hn), Int.toNat_natCast, add64_of_lt hlt]
  simp only [bind_eq, ret_bind, allocuvm, if_pos hle, Prog.pure_eq]
  rfl

theorem wp_forkPages (stack : Page) (h : Owned m l T S) (hk : T k = some r) (hk' : T k' = none)
    (hmapped : ∀ w, 1 ≤ w → w < pageUp sz → (view m.ram r w).isSome)
    (hE : Spare E (forkCost m r sz) l) :
    (forkPages stack r sz).wp E (fun a _ => forkCost m r sz ≤ l.length ∧ a.isSome) m := by
  have hsz : pageUp (sz % 2 ^ 32) ≤ pageUp sz :=
    Nat.div_le_div_right (by have := Nat.mod_le sz (2 ^ 32); omega)
  have hbound : pageUp (sz % 2 ^ 32) ≤ UPAGES := by
    change (sz % 2 ^ 32 + 4095) / 4096 ≤ 2 ^ 35
    omega
  simp only [forkPages, bind_eq, wp_bind]
  refine wp_kalloc h.chain (hE.imp_right fun hle => le_trans (Nat.le_add_right _ _) hle)
    fun f l' hl => ?_
  subst hl
  simp only [wp_bind, wp_change]
  -- the stack's frame is in nobody's tree
  have hview : ∀ w, w < UPAGES → view (m.popped.write f stack).ram r w = view m.ram r w := by
    refine fun w hw => view_congr (fun p t hp ht => update_of_ne ?_ _ _) hw
    rintro rfl
    exact h.not_free hk hp ht mem_cons_self
  have hcopied :
    copied (m.popped.write f stack).ram r 1 (sz % 2 ^ 32) = copied m.ram r 1 (sz % 2 ^ 32) :=
    copied_congr fun w hw => hview w (lt_of_lt_of_le hw hbound)
  have hall : ∀ w, 1 ≤ w → w < pageUp (sz % 2 ^ 32) →
    (view (m.popped.write f stack).ram r w).isSome :=
    fun w hw hw' => (hview w (lt_of_lt_of_le hw' hbound)).symm ▸ hmapped w hw
      (lt_of_lt_of_le hw' hsz)
  refine wp_copyuvm (h.hold stack) hk hk' hbound (by rw [hcopied]; exact hE.tail)
    (fun _ hnot => absurd hall hnot) fun m' d used l'' hl hused _ _ _ _ _ => ?_
  rw [hcopied] at hused
  refine ⟨?_, rfl⟩
  rw [forkCost, length_cons, Nat.add_comm 1]
  exact Nat.succ_le_succ (need_le hl hused)

omit [DecidableEq κ] [DecidableEq σ] in
theorem wp_pipePage (h : Owned m l T S) (hE : Spare E 1 l) :
    pipePage.wp E (fun a _ => 1 ≤ l.length ∧ a.isSome) m := by
  refine wp_kalloc h.chain hE fun f l' hl => ?_
  rw [hl]
  exact ⟨Nat.succ_le_succ (Nat.zero_le _), rfl⟩

/-- **Exhaustion is fatal.**  In every state in which each frame is in one place, for a process
whose pages are mapped up to its size and not beyond: `growproc` by a positive amount, `fork`
and `pipealloc` get their frames if the free list has as many as they need, and panic if it
has not; the one failure that is returned is that of a size past `KERNBASE`. -/
theorem exhaustion_panics (h : Owned m l T S) (hk : T k = some r) (hk' : T k' = none)
    (hsz : sz < 2 ^ 46) (hmapped : ∀ w, 1 ≤ w → w < pageUp sz → (view m.ram r w).isSome)
    (hnone : ∀ w, pageUp sz ≤ w → w < UPAGES → view m.ram r w = none) :
    (∀ n : ℕ, 0 < n → sz + n < 2 ^ 64 →
      if KERNBASE ≤ sz + n then (growproc r sz n).run m = .done (-1, sz) m
      else if pageUp (sz + n) ≤ UPAGES ∧ growCost m r sz n ≤ l.length then
        ∃ m', (growproc r sz n).run m = .done (0, sz + n) m'
      else OutOfMemory (growproc r sz n) m) ∧
    (∀ stack, if forkCost m r sz ≤ l.length then
        ∃ np m', (forkPages stack r sz).run m = .done (some np) m'
      else OutOfMemory (forkPages stack r sz) m) ∧
    if 1 ≤ l.length then ∃ f m', pipePage.run m = .done (some f) m'
      else OutOfMemory pipePage m := by
  refine ⟨fun n hn hlt => ?_, fun stack => ?_, ?_⟩
  · by_cases hkern : KERNBASE ≤ sz + n
    · rw [if_pos hkern]
      exact growproc_refused hn hkern hlt
    · rw [if_neg hkern]
      by_cases hbound : pageUp (sz + n) ≤ UPAGES
      · have hends := ends_by_need fun E hE => wp_growproc (E := E) h hk hn hbound hnone hE
        simp only [hbound, true_and]
        split_ifs at hends ⊢ with hneed
        · obtain ⟨_, m', hrun, rfl⟩ := hends
          exact ⟨m', hrun⟩
        · exact hends
      · rw [if_neg fun hc => hbound hc.1]
        exact growproc_beyond h hk hn hsz (not_le.1 hkern) hbound hnone
  · have hends := ends_by_need fun E hE => wp_forkPages (E := E) stack h hk hk' hmapped hE
    split_ifs at hends ⊢ with hneed
    · obtain ⟨np, m', hrun, hsome⟩ := hends
      obtain ⟨np, rfl⟩ := Option.isSome_iff_exists.1 hsome
      exact ⟨np, m', hrun⟩
    · exact hends
  · have hends := ends_by_need fun E hE => wp_pipePage (E := E) h hE
    split_ifs at hends ⊢ with hneed
    · obtain ⟨f, m', hrun, hsome⟩ := hends
      obtain ⟨f, rfl⟩ := Option.isSome_iff_exists.1 hsome
      exact ⟨f, m', hrun⟩
    · exact hends

/-! ## After the boot -/

/-- Memory before `kinit1`: the kernel ends at this frame. -/
def bootMem (kernelEnd : ℕ) : Mem := ⟨fun _ => Page.fill 0, 0, kernelEnd, 0, []⟩

/-- What the loop of `freerange` has freed so far. -/
structure Freeing (lo hi : ℕ) (rest : List ℕ) (m : Mem) : Prop where
  end_le : 0 < m.kernelEnd ∧ m.kernelEnd = lo
  nodup : rest.Nodup
  freed : ∃ l, Chain m.ram m.freelist l ∧ l.Nodup ∧ (∀ f, f ∈ l ∨ f ∈ rest ↔ lo ≤ f ∧ f < hi) ∧
    ∀ f ∈ l, f ∉ rest

/-- `freerange` puts its frames on the list. -/
theorem wp_freerange {lo hi : ℕ} (hlo : 0 < lo) (hhi : hi ≤ PHYSTOP / PGSIZE) :
    (freerange lo hi).wp E (fun _ m' => Freeing lo hi [] m' ∧ m'.kpdpt = 0) (bootMem lo) := by
  refine wp_forEach (I := fun rest m => Freeing lo hi rest m ∧ m.kpdpt = 0)
    ⟨⟨⟨hlo, rfl⟩, ?_, [], rfl, nodup_nil, fun f => ?_, by simp⟩, rfl⟩ ?_
  · exact nodup_range.map (add_right_injective lo)
  · simp only [not_mem_nil, false_or, mem_map, mem_range]
    exact ⟨fun ⟨a, ha, he⟩ => by omega, fun hf => ⟨f - lo, by omega, by omega⟩⟩
  · rintro f rest s ⟨⟨⟨hpos, hend⟩, hnodup, l, hchain, hl, hmem, hdisj⟩, hkpdpt⟩
    obtain ⟨hf, hrest⟩ := nodup_cons.1 hnodup
    have hrange : ∀ g, g ∈ l ∨ g ∈ f :: rest → g < PHYSTOP / PGSIZE := fun g hg =>
      lt_of_lt_of_le ((hmem g).1 hg).2 hhi
    have hflo := ((hmem f).1 (Or.inr mem_cons_self)).1
    have hfl : f ∉ l := fun hin => hdisj f hin mem_cons_self
    refine wp_kfree ⟨hend.le.trans hflo, hrange f (Or.inr mem_cons_self)⟩ ?_
    refine ⟨⟨⟨hpos, hend⟩, hrest, f :: l,
      hchain.pushed (fun g hg => hrange g (Or.inl hg)) hfl (by omega), nodup_cons.2 ⟨hfl, hl⟩,
        fun g => ?_, ?_⟩, hkpdpt⟩
    · rw [← hmem g, mem_cons, mem_cons]
      tauto
    · intro g hg hin
      rcases mem_cons.1 hg with rfl | hg
      · exact hf hin
      · exact hdisj g hg (mem_cons_of_mem f hin)

omit [DecidableEq κ] [DecidableEq σ] in
/-- Then every frame is on the list. -/
theorem Freeing.owned {lo : ℕ} (h : Freeing lo (PHYSTOP / PGSIZE) [] m) :
    ∃ l, Owned m l (fun _ : κ => none) (fun _ : σ => none) ∧ l.length = PHYSTOP / PGSIZE - lo := by
  obtain ⟨⟨hpos, hend⟩, -, l, hchain, hnodup, hmem, -⟩ := h
  have hspots : ∀ x, spots m.ram (fun _ : κ => none) (fun _ : σ => none) x = none := by
    rintro (⟨k, p⟩ | x)
    · exact ite_self none
    · rfl
  have hcov : ∀ f, f ∈ l ↔ lo ≤ f ∧ f < PHYSTOP / PGSIZE := fun f => by simpa using hmem f
  refine ⟨l, ⟨hchain, ⟨hnodup, fun x f hx => ?_, fun x _ f hx => ?_, fun f => ?_⟩, hpos⟩, ?_⟩
  · rw [hspots] at hx
    cases hx
  · rw [hspots] at hx
    cases hx
  · rw [Mem.Given, hend, ← hcov f]
    refine ⟨Or.inl, fun hf => hf.resolve_right ?_⟩
    rintro ⟨x, hx⟩
    rw [hspots] at hx
    cases hx
  · have hset : l.toFinset = Finset.Ico lo (PHYSTOP / PGSIZE) := by
      ext f
      rw [mem_toFinset, hcov f, Finset.mem_Ico]
    rw [← toFinset_card_of_nodup hnodup, hset, Nat.card_Ico]

/-- The allocator gets its frames, and an address space of one page above the first is made,
as `exec` makes one. -/
def firstSpace (kernelEnd : ℕ) : Prog Mem (Option ℕ) := do
  freerange kernelEnd (PHYSTOP / PGSIZE)
  let pgdir ← setupkvm
  match pgdir with
  | none => pure none
  | some r => do
    let _ ← allocuvm r PGSIZE (2 * PGSIZE)
    pure (some r)

/-- One page table, and no other. -/
abbrev alone (r : ℕ) : Bool → Option ℕ := update (fun _ => none) true (some r)

theorem alone_true (r : ℕ) : alone r true = some r := rfl

theorem alone_false (r : ℕ) : alone r false = none := rfl

/-- Whatever the kernel leaves is there for the first process. -/
theorem wp_firstSpace {kernelEnd : ℕ} (hpos : 0 < kernelEnd)
    (hroom : kernelEnd + 8 ≤ PHYSTOP / PGSIZE) :
    (firstSpace kernelEnd).wp noPanic (fun o m => ∃ r l, o = some r ∧
      Owned m l (alone r) (fun _ : Unit => none) ∧
      (view m.ram r 1).isSome ∧ (∀ w, w < UPAGES → w ≠ 1 → view m.ram r w = none) ∧
      l.length + 5 + kernelEnd = PHYSTOP / PGSIZE ∧ m.kpdpt = 0 ∧
      (m.ram r).entry 256 = mkEntry 0 (PTE_P ||| PTE_W)) (bootMem kernelEnd) := by
  simp only [firstSpace, bind_eq, wp_bind]
  refine wp_mono (wp_freerange hpos le_rfl) fun _ m hm => ?_
  obtain ⟨hm, hkpdpt⟩ := hm
  obtain ⟨l, hown, hlen⟩ := hm.owned (κ := Bool) (σ := Unit)
  refine wp_setupkvm (k := true) hown rfl (Or.inr (by omega)) fun r l' hl hown' => ?_
  subst hl
  rw [length_cons] at hlen
  generalize hm' : m.popped.write r (rootPage m.kpdpt) = m' at hown' ⊢
  have hroot : m'.ram r = rootPage m.kpdpt := by
    rw [← hm']
    exact update_self _ _ _
  have hpages : List.range' (pageUp PGSIZE) (pageUp (2 * PGSIZE) - pageUp PGSIZE) = [1] := by decide
  have hfresh : ∀ w, w < UPAGES → view m'.ram r w = none := fun w hw => view_rootPage hroot hw
  have hcost : cost m'.ram r [1] = 4 := by
    have htables : tables [1] = 3 := by decide
    rw [cost_rootPage hroot (by decide), htables, length_singleton]
  simp only [wp_bind]
  refine wp_allocuvm hown' (update_self ..) (by decide) (by decide)
    (fun w _ hw => hfresh w (lt_of_lt_of_le hw (by decide))) (Or.inr ?_)
      fun m'' used fs l'' hl hused hown'' halloc => ?_
  · rw [hpages, hcost]
    omega
  · rw [hpages] at halloc hused
    have hview := fun w hw => halloc.view hown' (update_self ..) hl
      (fun _ _ => loadable_freshPage) (w := w) hw
    refine ⟨r, l'', rfl, hown'', ?_, fun w hw hne => ?_, ?_, ?_, ?_⟩
    · rw [hview 1 (by decide), if_pos (mem_singleton_self 1)]
      rfl
    · rw [hview w hw, if_neg (by rwa [mem_singleton])]
      exact hfresh w hw
    · rw [hl, length_append, hused, hcost] at hlen
      omega
    · rw [halloc.ext.rest.2, ← hm']
      exact hkpdpt
    · rw [halloc.ext.upper 256 le_rfl, hroot, hkpdpt]
      exact Page.entry_setEntry_self (by decide)

theorem run_firstSpace {kernelEnd : ℕ} (hpos : 0 < kernelEnd)
    (hroom : kernelEnd + 8 ≤ PHYSTOP / PGSIZE) :
    ∃ r m l, (firstSpace kernelEnd).run (bootMem kernelEnd) = .done (some r) m ∧
      Owned m l (alone r) (fun _ : Unit => none) ∧
      (view m.ram r 1).isSome ∧ (∀ w, w < UPAGES → w ≠ 1 → view m.ram r w = none) ∧
      l.length + 5 + kernelEnd = PHYSTOP / PGSIZE ∧ m.kpdpt = 0 ∧
      (m.ram r).entry 256 = mkEntry 0 (PTE_P ||| PTE_W) := by
  obtain ⟨o, m, hrun, r, l, rfl, hm⟩ := (wp_noPanic_iff _).1 (wp_firstSpace hpos hroom)
  exact ⟨r, m, l, hrun, hm⟩

/-- A kernel of four megabytes and its first process, of one page above the first. -/
theorem firstSpace_exactly : ∃ r m l, (firstSpace 1024).run (bootMem 1024) = .done (some r) m ∧
    Owned m l (alone r) (fun _ : Unit => none) ∧
    Exactly m.ram r (2 * PGSIZE) ∧ l.length + 1029 = 57344 ∧ m.kpdpt = 0 := by
  obtain ⟨r, m, l, hrun, hown, hone, hnone, hlen, hkpdpt, -⟩ :=
    run_firstSpace (show 0 < 1024 by decide) (by decide)
  refine ⟨r, m, l, hrun, hown, fun v => ?_, by change _ = 57344 at hlen; omega, hkpdpt⟩
  have htwo : pageUp (2 * PGSIZE) = 2 := by decide
  rw [htwo]
  constructor
  · rintro ⟨hv, hsome⟩
    by_cases he : v = 1
    · omega
    · rw [hnone v hv he] at hsome
      cases hsome
  · intro hv
    obtain rfl : v = 1 := by omega
    exact ⟨by decide, hone⟩

/-- A kernel of four megabytes, and the first process makes a pipe. -/
theorem exhaustion_panics_first : ∃ r m l, (firstSpace 1024).run (bootMem 1024) = .done (some r) m ∧
    Owned m l (alone r) (fun _ : Unit => none) ∧
    if 1 ≤ l.length then ∃ f m', pipePage.run m = .done (some f) m'
      else OutOfMemory pipePage m := by
  obtain ⟨r, m, l, hrun, hown, hone, hnone, -⟩ :=
    run_firstSpace (show 0 < 1024 by decide) (by decide)
  refine ⟨r, m, l, hrun, hown, (exhaustion_panics hown (alone_true r) (alone_false r)
    (show 2 * PGSIZE < 2 ^ 46 by decide) (fun w hw hw' => ?_)
    (fun w hw hw' => hnone w hw' (Nat.ne_of_gt (show 2 ≤ w from hw)))).2.2⟩
  have hw'' : w < 2 := hw'
  rwa [show w = 1 by omega]

/-- The first process asks `sbrk` for a gigabyte. -/
theorem sbrk_panics : ∃ r m, (firstSpace 1024).run (bootMem 1024) = .done (some r) m ∧
    OutOfMemory (growproc r (2 * PGSIZE) (2 ^ 30 : ℕ)) m := by
  obtain ⟨r, m, l, hrun, hown, -, hnone, -⟩ := run_firstSpace (show 0 < 1024 by decide) (by decide)
  refine ⟨r, m, hrun, ?_⟩
  have hfree : l.length ≤ 57344 := hown.length_le
  have hpages : pageUp (2 * PGSIZE + 2 ^ 30) = 262146 := by decide
  refine growproc_out hown (alone_true r) (by decide) ?_
    (fun w hw hw' => hnone w hw' (Nat.ne_of_gt (show 2 ≤ w from hw))) ?_
  · rw [hpages]
    decide
  · have htwo : pageUp (2 * PGSIZE) = 2 := by decide
    rw [hpages, htwo]
    omega

end Xv6.Mm
