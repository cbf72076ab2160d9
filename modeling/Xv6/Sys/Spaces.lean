import Xv6.Lib.Machine
import Xv6.Mm.Fork
import Xv6.Sys.Sbrk
import Xv6.Sys.Stack

/-!
# Private address spaces

What page tables are for: every process has a memory of its own.  Above is a machine in which
each process simply has one, `Moves`; below is the kernel with its physical memory, its free
list, page tables, kernel stacks and pipes.  Each call is one step; a call that panics ends the
run.

* `Kernel.step` — `fork`, `sbrk`, the reaping of a child, the pages of pipes, a store of a program
  and the writes of the kernel to its own pages.
* `Sound` — every frame is in one place and every process has the pages of its size.
* `frames_owned` — that holds in every state reached.
* `spaces_private` — the kernel refines the machine with private memories.
-/

namespace Xv6.Mm

open Lib Function

/-- The place of `x` is the hand. -/
def inHand {κ σ : Type} [DecidableEq σ] (x : σ) : Spot κ σ → Option (Spot κ (Option σ))
  | .tree k p => some (.tree k p)
  | .solo y => some (.solo (if y = x then none else some y))

namespace Owned

variable {κ σ : Type} {T : κ → Option ℕ} {S : σ → Option ℕ} {m : Mem} {l : List ℕ} {f : ℕ} {x : σ}
  [DecidableEq κ] [DecidableEq σ]

omit [DecidableEq κ] in
/-- The frame in hand becomes a page on its own. -/
theorem keep (h : Owned m l T (hand S (some f))) (hx : S x = none) :
    Owned m l T (update S x (some f)) := by
  refine ⟨h.chain, h.ledger.reindex (inHand x) ?_ ?_ ?_, h.kernelEnd⟩
  · rintro (⟨k, p⟩ | y)
    · rfl
    · by_cases hy : y = x
      · subst hy
        simp [spots, hand, inHand]
      · simp [spots, hand, inHand, hy]
  · rintro (⟨k, p⟩ | y) (⟨k', p'⟩ | y') z h₁ h₂ -
    · cases h₁
      cases h₂
      rfl
    · cases h₁
      cases h₂
    · cases h₁
      cases h₂
    · have he := h₁.trans h₂.symm
      clear h₁ h₂
      by_cases hy : y = x <;> by_cases hy' : y' = x <;> simp_all [inHand]
  · rintro (⟨k, p⟩ | _ | y) hz
    · exact ⟨.tree k p, rfl⟩
    · exact ⟨.solo x, by simp [inHand]⟩
    · have hy : y ≠ x := by
        rintro rfl
        simp [spots, hand, hx] at hz
      exact ⟨.solo y, by simp [inHand, hy]⟩

/-- A page on its own back on the list. -/
theorem discard (h : Owned m l T S) (hx : S x = some f) :
    Owned (m.pushed f) (f :: l) T (update S x none) := by
  have hplace : spots m.ram T S (.solo x) = some f := hx
  have hf : f ∉ l := h.ledger.apart _ f hplace
  have hne : ∀ g, g ≠ f → (m.pushed f).ram g = m.ram g := fun g hg => update_of_ne hg _ _
  refine ⟨h.chain.pushed h.free_lt hf (h.ne_zero (h.ledger.given_of_place hplace)),
    h.ledger.give hplace ?_, h.kernelEnd⟩
  rintro (⟨k, p⟩ | y)
  · rw [if_neg (by rintro ⟨⟩)]
    change spots (m.pushed f).ram T S (.tree k p) = _
    refine spots_congr (fun k r q u hk hq hu i => child_congr ?_) _
    rw [hne u (h.ne_solo hk hq.1 hu hx)]
  · by_cases hy : y = x
    · subst hy
      rw [if_pos rfl]
      exact update_self ..
    · rw [if_neg (by rintro ⟨⟩; exact hy rfl)]
      exact update_of_ne hy _ _

end Owned

end Xv6.Mm

namespace Xv6.Sys

open Lib Prog Mm Function List

section Frames

variable {κ σ : Type} {T : κ → Option ℕ} {S : σ → Option ℕ} {k k' : κ} {x : σ} {m m' : Mem}
  {l l' : List ℕ}
  {r sz n v f : ℕ}

/-! ## The frames of others -/

/-- The frames that are not of the table of `k` are as they were. -/
structure Others (T : κ → Option ℕ) (S : σ → Option ℕ) (k : κ) (m m' : Mem) : Prop where
  tree : ∀ k' r' p g, k' ≠ k → T k' = some r' → User p → node m.ram r' p = some g →
    m'.ram g = m.ram g
  solo : ∀ x g, S x = some g → m'.ram g = m.ram g

theorem Others.refl (T : κ → Option ℕ) (S : σ → Option ℕ) (k : κ) (m : Mem) : Others T S k m m :=
  ⟨fun _ _ _ _ _ _ _ _ => rfl, fun _ _ _ => rfl⟩

/-- The other tables show the pages they showed. -/
theorem Others.unchanged (h : Others T S k m m') {k' : κ} {r' : ℕ} (hne : k' ≠ k)
    (hk' : T k' = some r') (hv : v < UPAGES) : Unchanged m m' r' v :=
  unchanged_congr (fun p t hp ht => h.tree k' r' p t hne hk' hp ht) hv

/-- A table that has grown has left the others alone. -/
theorem Others.of_extends {P : List ℕ → Prop} {D : ℕ → Prop} {used : List ℕ} (h : Owned m l T S)
    (hk : T k = some r)
    (hl : l = used ++ l') (hx : Extends r P D used m m') : Others T S k m m' where
  tree k' r' p g hne hk' hp hg := hx.same_tree h hk hl hk' hne hp hg
  solo x g hxg := by
    refine hx.same g (fun hu => ?_) fun p hp hn => h.ne_solo hk hp.1 hn hxg rfl
    exact h.ledger.apart (.solo x) g hxg (by rw [hl]; exact mem_append_left l' hu)

/-- So has a write to one of its pages. -/
theorem Others.write (h : Owned m l T S) (hk : T k = some r) (hv : v < UPAGES)
    (hf : node m.ram r (index v) = some f) (pg : Page) : Others T S k m (m.write f pg) where
  tree k' r' p g hne hk' hp hg := update_of_ne (by
    rintro rfl
    exact hne (h.tree_inj hk' hk hp (user_index hv) hg hf)) _ _
  solo x g hx := update_of_ne (fun he => h.ne_solo hk (user_index hv) hf hx he.symm) _ _

theorem not_table (h : Owned m l T S) (hk : T k = some r) (hv : v < UPAGES)
    (hf : node m.ram r (index v) = some f)
    (k' : κ) (r' : ℕ) (p : List ℕ) (hk' : T k' = some r') (hp : Table p) :
      node m.ram r' p ≠ some f := by
  intro hn
  obtain rfl := h.tree_inj hk' hk hp.1 (user_index hv) hn hf
  obtain rfl := Option.some.inj (hk'.symm.trans hk)
  have hpath := congrArg List.length (h.path_inj hk' hp.1 (user_index hv) hn hf)
  have hlen := hp.2
  rw [hpath] at hlen
  exact absurd hlen (by simp [index])

/-- Writing a page of the user keeps every frame where it is. -/
theorem owned_writeUser (h : Owned m l T S) (hk : T k = some r) (hv : v < UPAGES)
    (hf : node m.ram r (index v) = some f) (pg : Page) : Owned (m.write f pg) l T S :=
  h.write (h.not_free hk (user_index hv) hf) (not_table h hk hv hf) pg

/-- So has the freeing of the table. -/
theorem Others.of_freed (h : Owned m l T S) (hk : T k = some r)
    (hf : Freed m l (treeFrames m.ram r) m') :
    Others T S k m m' where
  tree k' r' p g hne hk' hp hg := hf.same g fun hin => by
    obtain ⟨q, hq, hn⟩ := mem_treeFrames.1 hin
    exact hne (h.tree_inj hk' hk hp hq hg hn)
  solo x g hx := hf.same g fun hin => by
    obtain ⟨q, hq, hn⟩ := mem_treeFrames.1 hin
    exact h.ne_solo hk hq hn hx rfl

/-- A page that is mapped shows its flags and its frame. -/
theorem view_of_node (h : node m.ram r (index v) = some f) :
    view m.ram r v = some (flagsOf (pte m.ram r v), m.ram f) ∧ frameOf (pte m.ram r v) = f := by
  rw [node_index] at h
  split_ifs at h with hp
  have hf := Option.some.inj h
  exact ⟨by rw [view, if_pos hp, hf], hf⟩

/-- A page of the user that is written shows the new contents, the others what they showed. -/
theorem view_writeUser (h : Owned m l T S) (hk : T k = some r) (hv : v < UPAGES)
    (hf : node m.ram r (index v) = some f) (pg : Page) {w : ℕ} (hw : w < UPAGES) :
    view (m.write f pg).ram r w = if w = v then some (flagsOf (pte m.ram r v), pg)
      else view m.ram r w := by
  have hram : ∀ u, u ≠ f → (m.write f pg).ram u = m.ram u :=
    fun u hu => update_of_ne hu _ _
  have hpte := pte_write hram (not_table h hk hv hf k r · hk) hw
  have hself : (m.write f pg).ram f = pg := update_self ..
  split_ifs with he
  · subst he
    obtain ⟨hview, hframe⟩ := view_of_node hf
    rw [node_index] at hf
    split_ifs at hf with hp
    rw [view, hpte, if_pos hp, hframe, hself]
  · refine view_congr_of_pte hpte fun hp => hram _ fun hfr => he ?_
    have hnode := node_index_of_present hp
    rw [hfr] at hnode
    exact index_inj (hw.trans (by decide)) (hv.trans (by decide))
      (h.path_inj hk (user_index hw) (user_index hv) hnode hf)

theorem Exactly.congr {ram ram' : ℕ → Page} {r' : ℕ} (h : Exactly ram r sz)
    (hv : ∀ w < UPAGES, (view ram' r' w).isSome = (view ram r w).isSome) : Exactly ram' r' sz :=
  fun w => by
  rw [← h w]
  exact and_congr_right fun hw => by rw [hv w hw]

end Frames

/-! ## The kernel -/

/-- A process: its kernel stack, the root of its page table and its size. -/
structure Occupant where
  kstack : ℕ
  pgdir : ℕ
  sz : ℕ

/-- Physical memory, the process table, and the pages of pipes. -/
structure Kernel where
  mem : Mem
  slot : Fin NPROC → Option Occupant
  page : ℕ → Option ℕ

/-- What happens next. -/
inductive Act where
  /-- `fork` by the first process, into the slot of the second, with this on its kernel stack. -/
  | fork (i j : Fin NPROC) (stack : Page)
  /-- `sys_sbrk`. -/
  | sbrk (i : Fin NPROC) (tf : ArgRegs)
  /-- `wait` has found this child. -/
  | reap (j : Fin NPROC)
  /-- `pipealloc` gets a page. -/
  | pipe (x : ℕ)
  /-- `pipeclose` frees it. -/
  | pipeclose (x : ℕ)
  /-- The program stores a byte. -/
  | store (i : Fin NPROC) (va : ℕ) (b : UInt8)
  /-- The kernel writes one of its own pages. -/
  | kwrite (x : Fin NPROC ⊕ ℕ) (pg : Page)

/-- The state after a call that has returned. -/
def after {α : Type} (o : Prog.Outcome Mem α) (next : α → Mem → Kernel) : Option Kernel :=
  match o with
  | .done a m => some (next a m)
  | _ => none

/-- The pages of `userinit`: `freerange` has given the allocator its frames, `allocproc` makes the
kernel stack. -/
def userinit (kernelEnd : ℕ) (stack : Page) (initcode : List UInt8) : Prog Mem Occupant := do
  freerange kernelEnd (PHYSTOP / PGSIZE)
  let kstack ← kalloc
  match kstack with
  | none => .panic "null pointer dereference"
  | some ks => do
    .change fun m => m.write ks stack
    let pgdir ← setupkvm
    match pgdir with
    | none => .panic "userinit: out of memory?"
    | some pgdir => do
      inituvm pgdir initcode
      pure ⟨ks, pgdir, 2 * PGSIZE⟩

/-- What `wait` frees of a child. -/
def reapPages (p : Occupant) : Prog Mem Unit := do
  kfree p.kstack
  freevm (some p.pgdir)

namespace Kernel

/-- The roots of the page tables. -/
def roots (s : Kernel) (i : Fin NPROC) : Option ℕ := (s.slot i).map (·.pgdir)

/-- The single pages: kernel stacks, and the others. -/
def solos (s : Kernel) : Fin NPROC ⊕ ℕ → Option ℕ
  | .inl i => (s.slot i).map (·.kstack)
  | .inr x => s.page x

/-- A process in a slot. -/
def put (s : Kernel) (i : Fin NPROC) (p : Option Occupant) (m : Mem) : Kernel :=
  { s with mem := m, slot := update s.slot i p }

/-- The kernel with its first process. -/
def booted (i : Fin NPROC) (p : Occupant) (m : Mem) : Kernel :=
  put ⟨m, fun _ => none, fun _ => none⟩ i (some p) m

/-- One call. -/
def step (s : Kernel) : Act → Option Kernel
  | .fork i j stack => (s.slot i).bind fun p =>
    if (s.slot j).isNone then
      after ((forkPages stack p.pgdir p.sz).run s.mem) fun out m =>
        out.elim { s with mem := m } fun c => s.put j (some ⟨c.1, c.2, p.sz⟩) m
    else none
  | .sbrk i tf => (s.slot i).bind fun p =>
    after ((sys_sbrk tf p.pgdir p.sz).run s.mem) fun out m =>
      s.put i (some { p with sz := out.2 }) m
  | .reap j => (s.slot j).bind fun p => after ((reapPages p).run s.mem) fun _ m => s.put j none m
  | .pipe x =>
    if (s.page x).isNone then
      after (pipePage.run s.mem) fun out m =>
        { s with mem := m, page := update s.page x out }
    else none
  | .pipeclose x => (s.page x).bind fun f =>
    after ((kfree f).run s.mem) fun _ m =>
      { s with mem := m, page := update s.page x none }
  | .store i va b => (s.slot i).bind fun p =>
    if pageOf va < UPAGES then
      (target s.mem.ram p.pgdir (pageOf va)).map fun f =>
        { s with mem := s.mem.write f (update (s.mem.ram f) (va % PGSIZE) b) }
    else none
  | .kwrite x pg => (s.solos x).map fun f => { s with mem := s.mem.write f pg }

end Kernel

variable {s s' s₀ : Kernel} {a : Act} {i j : Fin NPROC} {p : Occupant} {m m' : Mem} {l : List ℕ}

theorem after_eq_some {α : Type} {o : Prog.Outcome Mem α} {next : α → Mem → Kernel}
    (h : after o next = some s') :
    ∃ c m, o = .done c m ∧ s' = next c m := by
  cases o with
  | done c m => exact ⟨c, m, rfl, (Option.some.inj h).symm⟩
  | panicked msg m => cases h
  | stuck m => cases h

@[simp] theorem put_slot (o : Option Occupant) : (s.put i o m).slot = update s.slot i o :=
  rfl

theorem roots_put (o : Option Occupant) :
    (s.put i o m).roots = update s.roots i (o.map (·.pgdir)) := by
  funext j
  by_cases hj : j = i
  · subst hj
    simp [Kernel.roots]
  · simp [Kernel.roots, hj]

theorem solos_put (o : Option Occupant) :
    (s.put i o m).solos = update s.solos (.inl i) (o.map (·.kstack)) := by
  funext x
  cases x with
  | inr x => rfl
  | inl j =>
    by_cases hj : j = i
    · subst hj
      simp [Kernel.solos]
    · simp [Kernel.solos, hj]

theorem roots_some (h : s.slot i = some p) : s.roots i = some p.pgdir := by
  rw [Kernel.roots, h]
  rfl

theorem solos_inl (h : s.slot i = some p) : s.solos (.inl i) = some p.kstack := by
  rw [Kernel.solos, h]
  rfl

/-! ## The invariant -/

/-- Every frame is in one place, and every process has the pages of its size. -/
structure Sound (s : Kernel) : Prop where
  frames : ∃ l, Owned s.mem l s.roots s.solos
  exact : ∀ i p, s.slot i = some p → 0 < p.sz ∧ Exactly s.mem.ram p.pgdir p.sz

/-! ## The memories of the processes -/

/-- A memory: its size, and the flags and the contents of its pages. -/
@[ext]
structure Space where
  sz : ℕ
  page : ℕ → Option (ℕ × Page)

/-- The memory a table shows. -/
def spaceOf (ram : ℕ → Page) (t : Occupant) : Space where
  sz := t.sz
  page v := if v < UPAGES then view ram t.pgdir v else none

/-- The memories of all processes. -/
def Kernel.spaces (s : Kernel) (i : Fin NPROC) : Option Space :=
  (s.slot i).map fun p => spaceOf s.mem.ram p

/-- More pages, all zero. -/
def Space.grow (A : Space) (n : ℕ) : Space where
  sz := A.sz + n
  page v := if pageUp A.sz ≤ v ∧ v < pageUp (A.sz + n) then some (freshPage v) else A.page v

/-- A byte stored. -/
def Space.store (A : Space) (va : ℕ) (b : UInt8) : Space where
  sz := A.sz
  page := update A.page (pageOf va)
    ((A.page (pageOf va)).map fun c => (c.1, update c.2 (va % PGSIZE) b))

/-- What the calls do to the memories of the processes. -/
inductive Moves (A : Fin NPROC → Option Space) : Act → (Fin NPROC → Option Space) → Prop
  /-- The child gets a copy. -/
  | fork {i j : Fin NPROC} {stack : Page} {M : Space} : A i = some M → A j = none →
      Moves A (.fork i j stack) (update A j (some M))
  /-- A process grows by the amount in its register. -/
  | sbrk {i : Fin NPROC} {tf : ArgRegs} {M : Space} : A i = some M →
      Moves A (.sbrk i tf) (update A i (some (M.grow (tf.rdi % 2 ^ 32))))
  /-- The memory of a child that has ended is gone. -/
  | reap {j : Fin NPROC} : (A j).isSome → Moves A (.reap j) (update A j none)
  | pipe {x : ℕ} : Moves A (.pipe x) A
  | pipeclose {x : ℕ} : Moves A (.pipeclose x) A
  /-- A program stores a byte in a page that is its own. -/
  | store {i : Fin NPROC} {va : ℕ} {b : UInt8} {M : Space} : A i = some M →
    (M.page (pageOf va)).isSome →
      Moves A (.store i va b) (update A i (some (M.store va b)))
  | kwrite {x : Fin NPROC ⊕ ℕ} {pg : Page} : Moves A (.kwrite x pg) A

/-! ## The calls -/

section Calls

variable {κ σ : Type} {T : κ → Option ℕ} {S : σ → Option ℕ} {k k' : κ} {x : σ} {r sz n : ℕ}
  [DecidableEq κ] [DecidableEq σ]

/-- `fork`: the child's stack and table are new, and its pages are copies. -/
theorem wp_forkPages_owned (stack : Page) (h : Owned m l T S) (hk : T k = some r)
    (hk' : T k' = none) (hx : S x = none) (hmaps : Exactly m.ram r sz) :
    (forkPages stack r sz).wp anyPanic (fun out m' => ∃ ks d, out = some (ks, d) ∧
      (∃ l', Owned m' l' (update T k' (some d)) (update S x (some ks))) ∧
      (∀ v < UPAGES, view m'.ram d v = view m.ram r v) ∧
      ∀ j r', T j = some r' → ∀ v < UPAGES, view m'.ram r' v = view m.ram r' v) m := by
  have hsz : sz % 2 ^ 32 = sz := Nat.mod_eq_of_lt ((hmaps.sz_lt h hk).trans (by decide))
  have hbound : pageUp sz ≤ UPAGES := (hmaps.pageUp_le h hk).trans (by decide)
  simp only [forkPages, bind_eq, wp_bind]
  refine wp_kalloc h.chain (Or.inl trivial) fun f l' hl => ?_
  subst hl
  simp only [wp_bind, wp_change]
  rw [hsz]
  have hold : ∀ j r', T j = some r' → ∀ v < UPAGES, view (m.popped.write f stack).ram r' v =
    view m.ram r' v := by
    refine fun j r' hj v hv => view_congr (fun q t hq ht => update_of_ne ?_ _ _) hv
    rintro rfl
    exact h.not_free hj hq ht mem_cons_self
  refine wp_copyuvm (h.hold stack) hk hk' hbound (Or.inl trivial) (fun _ _ => ⟨trivial, trivial⟩)
    fun m' d used l'' hl _ _ hown hview hsame _ => ⟨f, d, rfl, ⟨l'', hown.keep hx⟩, fun v hv => ?_,
      fun j r' hj v hv => ?_⟩
  · rw [hview v hv, hold k r hk v hv]
    split_ifs with hin
    · rfl
    · exact (hmaps.eq_none hv hin).symm
  · rw [← hold j r' hj v hv]
    refine view_congr (fun q t hq ht => hsame t ?_) hv
    exact (h.hold stack).not_free hj hq ht

/-- `growproc` by what is not negative. -/
theorem wp_growproc_owned (h : Owned m l T S) (hk : T k = some r) (hmaps : Exactly m.ram r sz)
    (hpos : 0 < sz) (hn : n < 2 ^ 32) :
    (growproc r sz n).wp anyPanic (fun out m' => out = (0, sz + n) ∧ (∃ l', Owned m' l' T S) ∧
      Others T S k m m' ∧
      Exactly m'.ram r (sz + n) ∧ ∀ v < UPAGES, view m'.ram r v =
        if pageUp sz ≤ v ∧ v < pageUp (sz + n) then some (freshPage v) else view m.ram r v) m := by
  have hsz := hmaps.sz_lt h hk
  by_cases hn0 : n = 0
  · subst hn0
    rw [growproc, if_neg (by simp), if_neg (by simp)]
    refine ⟨rfl, ⟨l, h⟩, .refl T S k m, hmaps, fun v _ => ?_⟩
    rw [if_neg (by rw [Nat.add_zero]; omega)]
  · have hpos' : 0 < n := Nat.pos_of_ne_zero hn0
    have hlt : sz + n < KERNBASE := by
      change sz + n < 0xFFFF800000000000
      omega
    have hbound : pageUp (sz + n) ≤ UPAGES := by
      change (sz + n + 4095) / 4096 ≤ 2 ^ 35
      omega
    rw [growproc, if_pos (Int.natCast_pos.2 hpos'), Int.toNat_natCast,
      add64_of_lt (hlt.trans (by decide))]
    simp only [bind_eq, ret_bind, wp_bind]
    refine wp_allocuvm h hk (Nat.le_add_right _ _) hbound
      (fun w hw hw' => hmaps.beyond hw (lt_of_lt_of_le hw' hbound))
      (Or.inl trivial) fun m' used fs l' hl _ hown ha => ?_
    have hg := Grown.of_allocated h hk hmaps (Nat.le_add_right _ _) hbound hl ha
    rw [if_neg (by omega)]
    refine ⟨rfl, ⟨l', hown⟩, .of_extends h hk hl ha.ext, hg.exact hpos, fun v hv => ?_⟩
    rw [ha.view h hk hl (fun _ _ => loadable_freshPage) hv]
    simp only [mem_pages]

/-- The amount arrives without its sign. -/
theorem asI32_emod (a : ℕ) : asI32 a % 2 ^ 32 = ((a % 2 ^ 32 : ℕ) : ℤ) := by
  have h := Int.bmod_emod (x := a) (m := 2 ^ 32)
  rw [Int.natCast_mod]
  exact h

theorem sys_sbrk_owned {tf : ArgRegs} {out : ℕ × ℕ} (h : Owned m l T S) (hk : T k = some r)
    (hmaps : Exactly m.ram r sz) (hpos : 0 < sz) (hn : n = tf.rdi % 2 ^ 32)
    (hrun : (sys_sbrk tf r sz).run m = .done out m') :
    out.2 = sz + n ∧ (∃ l', Owned m' l' T S) ∧ Others T S k m m' ∧ Exactly m'.ram r (sz + n) ∧
      ∀ v < UPAGES, view m'.ram r v =
        if pageUp sz ≤ v ∧ v < pageUp (sz + n) then some (freshPage v) else view m.ram r v := by
  have hlt : n < 2 ^ 32 := hn ▸ Nat.mod_lt _ (by decide)
  have hsame : (sys_sbrk tf r sz).run m = ((growproc r sz n).bind fun a =>
      if a.1 < 0 then pure (2 ^ 64 - 1, a.2) else pure (sz, a.2)).run m := by
    rw [sys_sbrk, asI32_emod, ← hn]
    rfl
  rw [hsame] at hrun
  refine of_wp_of_run (E := anyPanic) (Q := fun out m' => out.2 = sz + n ∧
    (∃ l', Owned m' l' T S) ∧
    Others T S k m m' ∧ Exactly m'.ram r (sz + n) ∧ ∀ v < UPAGES, view m'.ram r v =
      if pageUp sz ≤ v ∧ v < pageUp (sz + n) then some (freshPage v) else view m.ram r v) ?_ hrun
  rw [wp_bind]
  refine wp_mono (wp_growproc_owned h hk hmaps hpos hlt) ?_
  rintro _ m' ⟨rfl, hrest⟩
  exact ⟨rfl, hrest⟩

/-- `wait` gives back the stack and the pages of the child. -/
theorem wp_reapPages {p : Occupant} {E : String → Prop} (h : Owned m l T S)
    (hk : T k = some p.pgdir) (hx : S x = some p.kstack) :
    (reapPages p).wp E (fun _ m' =>
      (∃ l', Owned m' l' (update T k none) (update S x none)) ∧
      ∀ j r', j ≠ k → T j = some r' → ∀ v < UPAGES, view m'.ram r' v = view m.ram r' v) m := by
  have hplace : spots m.ram T S (.solo x) = some p.kstack := hx
  simp only [reapPages, bind_eq, wp_bind]
  refine wp_kfree (h.ledger.given_of_place hplace) ?_
  have hdrop := h.discard hx
  refine wp_freevm hdrop hk fun m' hfreed hown => ⟨⟨_, hown⟩, fun j r' hj hr' v hv => ?_⟩
  rw [((Others.of_freed hdrop hk hfreed).unchanged hj hr' hv).2]
  exact view_congr (fun q t hq ht => update_of_ne (h.ne_solo hr' hq ht hx) _ _) hv

end Calls

/-! ## One step -/

/-- The tables of the others show what they showed. -/
def Apart (s : Kernel) (i : Option (Fin NPROC)) (m : Mem) : Prop :=
  ∀ j r, some j ≠ i → s.roots j = some r → ∀ v < UPAGES, view m.ram r v = view s.mem.ram r v

theorem Apart.of_others (h : Others s.roots s.solos i s.mem m) : Apart s (some i) m :=
  fun _ _ hj hr _ hv =>
  (h.unchanged (fun he => hj (congrArg some he)) hr hv).2

/-- No table shows the pages on their own. -/
theorem Apart.of_solo {x : Fin NPROC ⊕ ℕ} {f : ℕ} (h : Owned s.mem l s.roots s.solos)
    (hx : s.solos x = some f)
    (hm : ∀ g, g ≠ f → m.ram g = s.mem.ram g) : Apart s none m := fun _ _ _ hr _ hv =>
  view_congr (fun _ g hq hg => hm g (h.ne_solo hr hq hg hx)) hv

theorem Apart.of_free {f : ℕ} (h : Owned s.mem (f :: l) s.roots s.solos)
    (hm : ∀ g, g ≠ f → m.ram g = s.mem.ram g) : Apart s none m := fun _ _ _ hr _ hv =>
  view_congr (fun _ g hq hg => hm g (by rintro rfl; exact h.not_free hr hq hg mem_cons_self))
    hv

theorem spaceOf_congr {ram ram' : ℕ → Page} {t t' : Occupant} (hsz : t'.sz = t.sz)
    (hview : ∀ v < UPAGES, view ram' t'.pgdir v = view ram t.pgdir v) :
      spaceOf ram' t' = spaceOf ram t := by
  ext1
  · exact hsz
  · funext v
    simp only [spaceOf]
    split_ifs with hv
    · exact hview v hv
    · rfl

theorem spaces_put (o : Option Occupant) (hapart : Apart s (some i) m) :
    (s.put i o m).spaces = update s.spaces i (o.map fun p => spaceOf m.ram p) := by
  funext j
  by_cases hj : j = i
  · subst hj
    simp [Kernel.spaces, Kernel.put]
  · simp only [Kernel.spaces, Kernel.put, update_of_ne hj]
    refine Option.map_congr fun p hp => ?_
    have hview := hapart j p.pgdir (by simpa using hj) (roots_some hp)
    exact spaceOf_congr rfl hview

/-- A change to one process, that leaves the others alone. -/
theorem Sound.put (h : Sound s) (o : Option Occupant) (hapart : Apart s (some i) m)
    (hown : ∃ l, Owned m l (update s.roots i (o.map (·.pgdir)))
      (update s.solos (.inl i) (o.map (·.kstack))))
    (hexact : ∀ p, o = some p → 0 < p.sz ∧ Exactly m.ram p.pgdir p.sz) : Sound (s.put i o m) := by
  refine ⟨?_, fun j p hp => ?_⟩
  · rw [roots_put, solos_put]
    exact hown
  · by_cases hj : j = i
    · subst hj
      exact hexact p (by simpa using hp)
    · have hp' : s.slot j = some p := by simpa [hj] using hp
      obtain ⟨hpos, hmaps⟩ := h.exact j p hp'
      refine ⟨hpos, Exactly.congr hmaps fun v hv => ?_⟩
      exact congrArg Option.isSome (hapart j p.pgdir (by simpa using hj) (roots_some hp') v hv)

theorem Sound.pages (h : Sound s) (pg : ℕ → Option ℕ) (hapart : Apart s none m)
    (hown : ∃ l, Owned m l s.roots (Kernel.solos { s with mem := m, page := pg })) :
    Sound { s with mem := m, page := pg } ∧ Kernel.spaces { s with mem := m, page := pg } =
      s.spaces := by
  refine ⟨⟨hown, fun j p hp => ?_⟩, ?_⟩
  · obtain ⟨hpos, hmaps⟩ := h.exact j p hp
    refine ⟨hpos, Exactly.congr hmaps fun v hv => ?_⟩
    exact congrArg Option.isSome (hapart j p.pgdir (by simp) (roots_some hp) v hv)
  · funext j
    refine Option.map_congr fun p hp => ?_
    exact spaceOf_congr rfl (hapart j p.pgdir (by simp) (roots_some hp))

/-- What every step does. -/
def SpaceStep (s : Kernel) (a : Act) (s' : Kernel) : Prop := Sound s' ∧ Moves s.spaces a s'.spaces

theorem spaces_some (h : s.slot i = some p) : s.spaces i = some (spaceOf s.mem.ram p) := by
  rw [Kernel.spaces, h]
  rfl

theorem spaceStep_fork {stack : Page} (h : Sound s) (hstep : s.step (.fork i j stack) = some s') :
    SpaceStep s (.fork i j stack) s' := by
  obtain ⟨p, hp, hstep⟩ := Option.bind_eq_some_iff.1 hstep
  split_ifs at hstep with hj
  rw [Option.isNone_iff_eq_none] at hj
  obtain ⟨out, m, hrun, rfl⟩ := after_eq_some hstep
  obtain ⟨l, hown⟩ := h.frames
  obtain ⟨hpos, hmaps⟩ := h.exact i p hp
  have hroot : s.roots j = none := by simp [Kernel.roots, hj]
  have hsolo : s.solos (.inl j) = none := by simp [Kernel.solos, hj]
  obtain ⟨ks, d, rfl, hown', hview, hothers⟩ := of_wp_of_run
    (wp_forkPages_owned stack hown (roots_some hp) hroot hsolo hmaps) hrun
  have hapart : Apart s (some j) m := fun k r _ hr v hv => hothers k r hr v hv
  refine ⟨h.put _ hapart hown' ?_, ?_⟩
  · rintro _ ⟨⟩
    exact ⟨hpos, Exactly.congr hmaps fun v hv => congrArg Option.isSome (hview v hv)⟩
  · change Moves _ _ (s.put j _ m).spaces
    rw [spaces_put _ hapart]
    have he : spaceOf m.ram ⟨ks, d, p.sz⟩ = spaceOf s.mem.ram p := spaceOf_congr rfl hview
    simp only [Option.map_some, he]
    exact .fork (spaces_some hp) (by simp [Kernel.spaces, hj])

theorem spaceStep_sbrk {tf : ArgRegs} (h : Sound s) (hstep : s.step (.sbrk i tf) = some s') :
    SpaceStep s (.sbrk i tf) s' := by
  obtain ⟨p, hp, hstep⟩ := Option.bind_eq_some_iff.1 hstep
  obtain ⟨out, m, hrun, rfl⟩ := after_eq_some hstep
  obtain ⟨l, hown⟩ := h.frames
  obtain ⟨hpos, hmaps⟩ := h.exact i p hp
  obtain ⟨n, hd⟩ : ∃ n, n = tf.rdi % 2 ^ 32 := ⟨_, rfl⟩
  obtain ⟨hsz, hown', hothers, hmaps', hview⟩ :=
    sys_sbrk_owned hown (roots_some hp) hmaps hpos hd hrun
  have hroots : update s.roots i (some p.pgdir) = s.roots := by
    rw [← roots_some hp, update_eq_self]
  have hsolos : update s.solos (.inl i) (some p.kstack) = s.solos := by
    rw [← solos_inl hp, update_eq_self]
  refine ⟨h.put _ (.of_others hothers) ?_ ?_, ?_⟩
  · simpa only [Option.map_some, hroots, hsolos] using hown'
  · rintro _ ⟨⟩
    exact ⟨by simp only [hsz]; omega, by simpa only [hsz] using hmaps'⟩
  · rw [spaces_put _ (.of_others hothers)]
    have he : spaceOf m.ram { p with sz := out.2 } = (spaceOf s.mem.ram p).grow n := by
      ext1
      · exact hsz
      · funext v
        simp only [spaceOf, Space.grow]
        by_cases hv : v < UPAGES
        · simp only [if_pos hv]
          exact hview v hv
        · rw [if_neg hv, if_neg hv]
          refine (if_neg ?_).symm
          rintro ⟨-, hlow⟩
          have hle := hmaps'.pageUp_le (m := m) hown'.choose_spec (roots_some hp)
          exact hv (lt_of_lt_of_le hlow (hle.trans (by decide)))
    simp only [Option.map_some, he, hd]
    exact .sbrk (spaces_some hp)

theorem spaceStep_reap (h : Sound s) (hstep : s.step (.reap j) = some s') :
    SpaceStep s (.reap j) s' := by
  obtain ⟨p, hp, hstep⟩ := Option.bind_eq_some_iff.1 hstep
  obtain ⟨out, m, hrun, rfl⟩ := after_eq_some hstep
  obtain ⟨l, hown⟩ := h.frames
  obtain ⟨hown', hothers⟩ :=
    of_wp_of_run (wp_reapPages (E := anyPanic) hown (roots_some hp) (solos_inl hp)) hrun
  have hapart : Apart s (some j) m :=
    fun k r hk hr v hv => hothers k r (fun he => hk (congrArg some he)) hr v hv
  refine ⟨h.put _ hapart hown' (by rintro _ ⟨⟩), ?_⟩
  rw [spaces_put _ hapart]
  exact .reap (by rw [spaces_some hp]; rfl)

theorem solos_page (x : ℕ) (o : Option ℕ) :
    Kernel.solos { s with mem := m, page := update s.page x o } = update s.solos
      (.inr x) o := by
  funext y
  rcases y with j | y
  · rfl
  · by_cases hy : y = x
    · subst hy
      simp [Kernel.solos]
    · simp [Kernel.solos, hy]

theorem spaceStep_pipe {x : ℕ} (h : Sound s) (hstep : s.step (.pipe x) = some s') :
    SpaceStep s (.pipe x) s' := by
  rw [Kernel.step] at hstep
  split_ifs at hstep with hx
  rw [Option.isNone_iff_eq_none] at hx
  obtain ⟨out, m, hrun, rfl⟩ := after_eq_some hstep
  obtain ⟨l, hown⟩ := h.frames
  obtain ⟨f, l', rfl, rfl, rfl⟩ := of_wp_of_run (wp_kalloc (E := anyPanic)
    (Q := fun o m' => ∃ f l', l = f :: l' ∧ o = some f ∧ m' = s.mem.popped) hown.chain
      (Or.inl trivial)
    fun f l' hl => ⟨f, l', hl, rfl, rfl⟩) hrun
  have hsolo : s.solos (.inr x) = none := hx
  have hheld := hown.hold (s.mem.ram f)
  have hsame : s.mem.popped.write f (s.mem.ram f) = s.mem.popped := by
    simp [Mem.write, Mem.popped]
  rw [hsame] at hheld
  obtain ⟨hsound, hspaces⟩ := h.pages (m := s.mem.popped) (update s.page x (some f))
    (.of_free hown fun _ _ => rfl) ⟨l', by rw [solos_page]; exact hheld.keep hsolo⟩
  exact ⟨hsound, by rw [hspaces]; exact .pipe⟩

theorem spaceStep_pipeclose {x : ℕ} (h : Sound s) (hstep : s.step (.pipeclose x) = some s') :
    SpaceStep s (.pipeclose x) s' := by
  obtain ⟨f, hf, hstep⟩ := Option.bind_eq_some_iff.1 hstep
  obtain ⟨out, m, hrun, rfl⟩ := after_eq_some hstep
  obtain ⟨l, hown⟩ := h.frames
  have hsolo : s.solos (.inr x) = some f := hf
  have hplace : spots s.mem.ram s.roots s.solos (.solo (.inr x)) = some f := hf
  obtain rfl :=
    of_wp_of_run (wp_kfree (E := anyPanic) (Q := fun _ m' => m' = s.mem.pushed f)
    (hown.ledger.given_of_place hplace) rfl) hrun
  obtain ⟨hsound, hspaces⟩ := h.pages (m := s.mem.pushed f) (update s.page x none)
    (.of_solo hown hsolo fun g hg => update_of_ne hg _ _)
      ⟨f :: l, by rw [solos_page]; exact hown.discard hsolo⟩
  exact ⟨hsound, by rw [hspaces]; exact .pipeclose⟩

theorem spaceStep_kwrite {x : Fin NPROC ⊕ ℕ} {pg : Page} (h : Sound s)
    (hstep : s.step (.kwrite x pg) = some s') :
    SpaceStep s (.kwrite x pg) s' := by
  obtain ⟨f, hf, rfl⟩ := Option.map_eq_some_iff.1 hstep
  obtain ⟨l, hown⟩ := h.frames
  have hplace : spots s.mem.ram s.roots s.solos (.solo x) = some f := hf
  obtain ⟨hsound, hspaces⟩ := h.pages (m := s.mem.write f pg) s.page
    (.of_solo hown hf fun g hg => update_of_ne hg _ _)
    ⟨l, hown.write (hown.ledger.apart _ f hplace) (fun k r q hk hq hn => hown.ne_solo hk hq.1 hn
      hf rfl) pg⟩
  exact ⟨hsound, by rw [hspaces]; exact .kwrite⟩

theorem spaceStep_store {va : ℕ} {b : UInt8} (h : Sound s) (hstep : s.step (.store i va b) =
    some s') :
    SpaceStep s (.store i va b) s' := by
  obtain ⟨p, hp, hstep⟩ := Option.bind_eq_some_iff.1 hstep
  split_ifs at hstep with hva
  obtain ⟨f, hf, rfl⟩ := Option.map_eq_some_iff.1 hstep
  obtain ⟨l, hown⟩ := h.frames
  obtain ⟨hpos, hmaps⟩ := h.exact i p hp
  have hroot := roots_some hp
  have hnode := node_of_target hf
  obtain ⟨pg, hpg⟩ : ∃ pg, pg = update (s.mem.ram f) (va % PGSIZE) b := ⟨_, rfl⟩
  rw [← hpg]
  have hview := fun w hw => view_writeUser hown hroot hva hnode pg (w := w) hw
  have hold := (view_of_node hnode).1
  have hothers := Others.write hown hroot hva hnode pg
  have hput :
    ({ s with mem := s.mem.write f pg } : Kernel) = s.put i (some p) (s.mem.write f pg) := by
    rw [Kernel.put, ← hp, update_eq_self]
  rw [hput]
  refine ⟨h.put _ (.of_others hothers) ⟨l, ?_⟩ ?_, ?_⟩
  · simpa only [Option.map_some, ← roots_some hp, ← solos_inl hp, update_eq_self] using
      owned_writeUser hown hroot hva hnode pg
  · rintro _ ⟨⟩
    refine ⟨hpos, Exactly.congr hmaps fun w hw => ?_⟩
    rw [hview w hw]
    split_ifs with he
    · rw [he, hold]
      rfl
    · rfl
  · rw [spaces_put _ (.of_others hothers)]
    have he : spaceOf (s.mem.write f pg).ram p = (spaceOf s.mem.ram p).store va b := by
      ext1
      · rfl
      · funext w
        by_cases hw : w = pageOf va
        · subst hw
          simp only [spaceOf, Space.store, update_self, if_pos hva]
          rw [hview _ hva, if_pos rfl, hold, hpg]
          rfl
        · simp only [spaceOf, Space.store, update_of_ne hw]
          by_cases hlt : w < UPAGES
          · rw [if_pos hlt, if_pos hlt, hview w hlt, if_neg hw]
          · rw [if_neg hlt, if_neg hlt]
    rw [Option.map_some, he]
    refine .store (spaces_some hp) ?_
    simp only [spaceOf, if_pos hva, hold]
    rfl

/-- Every step keeps the frames apart, and is one of the machine with private memories. -/
theorem spaceStep_of_step (h : Sound s) (hstep : s.step a = some s') : SpaceStep s a s' := by
  cases a with
  | fork i j stack => exact spaceStep_fork h hstep
  | sbrk i tf => exact spaceStep_sbrk h hstep
  | reap j => exact spaceStep_reap h hstep
  | pipe x => exact spaceStep_pipe h hstep
  | pipeclose x => exact spaceStep_pipeclose h hstep
  | store i va b => exact spaceStep_store h hstep
  | kwrite x pg => exact spaceStep_kwrite h hstep

/-! ## From the boot on -/

theorem wp_inituvm {κ σ : Type} [DecidableEq κ] [DecidableEq σ] {T : κ → Option ℕ} {S : σ →
    Option ℕ} {k : κ} {r kpdpt : ℕ}
    {initcode : List UInt8} {E : String → Prop} (h : Owned m l T S) (hk : T k = some r)
    (hroot : m.ram r = rootPage kpdpt) (hcode : initcode.length < PGSIZE) (hE : Spare E 4 l) :
    (inituvm r initcode).wp E (fun _ m' => (∃ l', l'.length + 4 = l.length ∧ Owned m' l' T S) ∧
      Exactly m'.ram r (2 * PGSIZE) ∧
      ∃ pg, view m'.ram r 1 = some (PTE_W ||| PTE_U ||| PTE_P, pg)) m := by
  have hone : 1 < UPAGES := by decide
  have hnone : ∀ w < UPAGES, view m.ram r w = none := fun w hw => view_rootPage hroot hw
  have hmiss : (missing m.ram r [1]).card = 3 := by
    have hcost : cost m.ram r [1] = 1 + 3 := cost_rootPage hroot (by simp [hone])
    exact Nat.add_left_cancel hcost
  simp only [inituvm, if_neg (not_le.2 hcode), bind_eq, wp_bind]
  refine wp_kalloc h.chain (hE.imp_right fun hle => by omega) fun f l' hl => ?_
  subst hl
  simp only [wp_bind, wp_change]
  rw [← kernel_mappages]
  refine wp_mapFresh (v := 1) (kernel_grants E) h
    (show kernel.get _ = { m.popped.write f (Page.fill 0) with
    granted := m.granted ++ [] } by rw [List.append_nil]; rfl) hk hone (by decide)
    (by rw [← view_eq_none_iff]; exact hnone 1 hone) ?_ (fun _ _ _ hF => hF.elim)
      fun u l₂ m₂ _ hl₂ hu hown ha => ?_
  · -- its tables
    rw [hmiss]
    exact hE.imp_right fun hle => by simpa using hle
  · change Owned m₂ l₂ T S at hown
    change Allocated _ _ _ _ _ _ _ m₂ at ha
    have hview := fun w hw => ha.view h hk (show f :: l' = f :: u ++ l₂ by rw [hl₂]; rfl)
      (fun _ _ => ⟨by decide, by decide⟩) (w := w) hw
    obtain ⟨g, hg, hpte, -⟩ := ha.mapped 1 (mem_singleton_self 1)
    obtain rfl := mem_singleton.1 hg
    have hnode : node m₂.ram r (index 1) = some g := by
      rw [node_index, hpte, if_pos (by rw [present_mkEntry (by decide)]; decide),
        frameOf_mkEntry (by decide)]
    refine ⟨⟨l₂, ?_, owned_writeUser hown hk hone hnode _⟩, fun w => ?_,
      splice (m₂.ram g) 0 initcode.length fun i => initcode.getD i 0, ?_⟩
    · rw [hmiss] at hu
      rw [hl₂, length_cons, length_append, hu]
      omega
    rotate_left
    · rw [view_writeUser hown hk hone hnode _ hone, if_pos rfl, hpte, flagsOf_mkEntry (by decide)]
    have htwo : pageUp (2 * PGSIZE) = 2 := by decide
    rw [htwo]
    constructor
    · rintro ⟨hw, hsome⟩
      by_cases he : w = 1
      · omega
      · change (view (m₂.write g _).ram r w).isSome at hsome
        rw [view_writeUser hown hk hone hnode _ hw, if_neg he] at hsome
        rw [show view m₂.ram r w = none by rw [hview w hw, if_neg (by simpa using he), hnone w hw]]
          at hsome
        cases hsome
    · intro hw
      obtain rfl : w = 1 := by omega
      refine ⟨hone, ?_⟩
      rw [view_writeUser hown hk hone hnode _ hone, if_pos rfl]
      rfl

/-- The kernel boots, and each frame is in one place. -/
theorem userinit_sound {kernelEnd : ℕ} {initcode : List UInt8} (stack : Page) (i : Fin NPROC)
    (hpos : 0 < kernelEnd)
    (hroom : kernelEnd + 8 ≤ PHYSTOP / PGSIZE) (hcode : initcode.length < PGSIZE) :
    ∃ p m, (userinit kernelEnd stack initcode).run (bootMem kernelEnd) = .done p m ∧
      Sound (.booted i p m) ∧ p.sz = 2 * PGSIZE ∧
      (∃ pg, view m.ram p.pgdir 1 = some (PTE_W ||| PTE_U ||| PTE_P, pg)) ∧
      ∃ l, l.length + 6 + kernelEnd = PHYSTOP / PGSIZE ∧
        Owned m l (Kernel.booted i p m).roots (Kernel.booted i p m).solos := by
  refine (wp_noPanic_iff _).1 ?_
  simp only [userinit, bind_eq, wp_bind]
  refine wp_mono (wp_freerange hpos le_rfl) fun _ m hm => ?_
  obtain ⟨l, hown, hlen⟩ := hm.1.owned (κ := Fin NPROC) (σ := Fin NPROC ⊕ ℕ)
  refine wp_kalloc hown.chain (Or.inr (by omega)) fun f l₁ hl₁ => ?_
  subst hl₁
  rw [length_cons] at hlen
  simp only [wp_bind, wp_change]
  have hheld := (hown.hold stack).keep (x := .inl i) rfl
  refine wp_setupkvm (k := i) hheld rfl (Or.inr (by omega)) fun r l₂ hl₂ hown₂ => ?_
  subst hl₂
  rw [length_cons] at hlen
  simp only [wp_bind]
  refine wp_mono (wp_inituvm hown₂ (update_self ..) (update_self ..) hcode
    (Or.inr (by omega))) ?_
  rintro _ m' ⟨⟨l', hlen', hown'⟩, hmaps, hpage⟩
  have hboot : Owned m' l' (Kernel.booted i ⟨f, r, 2 * PGSIZE⟩ m').roots
      (Kernel.booted i ⟨f, r, 2 * PGSIZE⟩ m').solos := by
    have hroots : Kernel.roots ⟨m', fun _ => none, fun _ => none⟩ = fun _ => none := by
      rfl
    have hsolos : Kernel.solos ⟨m', fun _ => none, fun _ => none⟩ = fun _ => none := by
      funext x
      cases x <;> rfl
    rw [Kernel.booted, roots_put, solos_put, hroots, hsolos]
    exact hown'
  refine ⟨⟨⟨l', hboot⟩, fun j p hp => ?_⟩, rfl, hpage, l', by omega, hboot⟩
  by_cases hj : j = i
  · subst hj
    obtain rfl : _ = p := Option.some.inj (by simpa [Kernel.booted] using hp)
    have hsz : 0 < 2 * PGSIZE := by decide
    exact ⟨hsz, hmaps⟩
  · simp [Kernel.booted, hj] at hp

section Runs

variable {kernelEnd : ℕ} {stack : Page} {initcode : List UInt8}

theorem sound_of_reach (hpos : 0 < kernelEnd) (hroom : kernelEnd + 8 ≤ PHYSTOP / PGSIZE)
    (hcode : initcode.length < PGSIZE)
    (hboot : (userinit kernelEnd stack initcode).run (bootMem kernelEnd) = .done p m)
    (hreach : Reach Kernel.step anyStep (.booted i p m) s) : Sound s := by
  obtain ⟨p', m', hrun, hsound, -⟩ := userinit_sound stack i hpos hroom hcode
  rw [hboot] at hrun
  cases hrun
  exact hreach.invariant hsound fun s a s' h _ hstep => (spaceStep_of_step h hstep).1

/-- **Every frame is in one place.**  In every state reached from the boot, whatever the processes
have called and in whatever order: each frame the allocator has been given is on the free list,
at one path of one page table, or one of the kernel's own pages, and never in two places; and
every process has exactly the pages of its size. -/
theorem frames_owned (hpos : 0 < kernelEnd) (hroom : kernelEnd + 8 ≤ PHYSTOP / PGSIZE)
    (hcode : initcode.length < PGSIZE)
    (hboot : (userinit kernelEnd stack initcode).run (bootMem kernelEnd) = .done p m)
    (hreach : Reach Kernel.step anyStep (.booted i p m) s) :
    (∃ l, Owned s.mem l s.roots s.solos) ∧
      ∀ j q, s.slot j = some q → 0 < q.sz ∧ Exactly s.mem.ram q.pgdir q.sz :=
  ⟨(sound_of_reach hpos hroom hcode hboot hreach).frames,
    (sound_of_reach hpos hroom hcode hboot hreach).exact⟩

/-- The first process, and its kernel stack written. -/
theorem frames_owned_boot :
    ∃ p m, (userinit 1024 (Page.fill 0) [1]).run (bootMem 1024) = .done p m ∧
    ∃ s, Kernel.step (.booted ⟨0, by decide⟩ p m) (.kwrite (.inl ⟨0, by decide⟩) (Page.fill 1)) =
      some s ∧
      ((∃ l, Owned s.mem l s.roots s.solos) ∧
        ∀ j q, s.slot j = some q → 0 < q.sz ∧ Exactly s.mem.ram q.pgdir q.sz) := by
  obtain ⟨p, m, hboot, -⟩ := userinit_sound (Page.fill 0) ⟨0, by decide⟩ (show 0 < 1024 by decide)
    (by decide) (show ([1] : List UInt8).length < PGSIZE by decide)
  obtain ⟨s, hs⟩ : ∃ s, Kernel.step (.booted ⟨0, by decide⟩ p m)
    (.kwrite (.inl ⟨0, by decide⟩) (Page.fill 1)) = some s :=
    ⟨_, rfl⟩
  have hreach : Reach Kernel.step anyStep (.booted ⟨0, by decide⟩ p m) s :=
    .step .init (by trivial) hs
  exact ⟨p, m, hboot, s, hs, frames_owned (by decide) (by decide) (by decide) hboot hreach⟩

/-- **Memories are private.**  Every call from every state reached from the boot changes the
memories of the processes as it would if each had one of its own: `fork` copies that of the
parent, `sbrk` adds zero pages to that of the caller, `wait` removes that of the child, a store
changes one byte of one page; and no call changes any other. -/
theorem spaces_private (hpos : 0 < kernelEnd) (hroom : kernelEnd + 8 ≤ PHYSTOP / PGSIZE)
    (hcode : initcode.length < PGSIZE)
    (hboot : (userinit kernelEnd stack initcode).run (bootMem kernelEnd) = .done p m)
    (hreach : Reach Kernel.step anyStep (.booted i p m) s) (hstep : s.step a = some s') :
    Moves s.spaces a s'.spaces :=
  (spaceStep_of_step (sound_of_reach hpos hroom hcode hboot hreach) hstep).2

theorem Moves.of_fork {A B : Fin NPROC → Option Space} (h : Moves A (.fork i j stack) B) :
    ∃ M, A i = some M ∧ B = update A j (some M) := by
  cases h with
  | fork hi _ => exact ⟨_, hi, rfl⟩

theorem Moves.of_store {A B : Fin NPROC → Option Space} {va : ℕ} {b : UInt8}
    (h : Moves A (.store i va b) B) :
    ∃ M, A i = some M ∧ B = update A i (some (M.store va b)) := by
  cases h with
  | store hi _ => exact ⟨_, hi, rfl⟩

/-- A page that the user may use is there for a store. -/
theorem step_store {va fl : ℕ} {b : UInt8} {M : Space} {pg : Page} (hM : s.spaces i = some M)
    (hpage : M.page (pageOf va) = some (fl, pg)) (hfl : fl.testBit 2 = true) :
    ∃ s', s.step (.store i va b) = some s' := by
  obtain ⟨p, hp, rfl⟩ := Option.map_eq_some_iff.1 hM
  simp only [spaceOf] at hpage
  split_ifs at hpage with hva
  rw [view] at hpage
  split_ifs at hpage with hpresent
  have huser : isUser (pte s.mem.ram p.pgdir (pageOf va)) = true := by
    rw [← (Prod.mk.inj (Option.some.inj hpage)).1] at hfl
    change (_ % 2 ^ 12).testBit 2 = true at hfl
    rw [Nat.testBit_mod_two_pow] at hfl
    exact (Bool.and_eq_true_iff.1 hfl).2
  rw [← Option.isSome_iff_exists, Kernel.step, hp, Option.bind_some, if_pos hva, target, hpresent,
    huser]
  rfl

/-- The first process forks, and the child stores a byte: the parent's memory stays as it was. -/
theorem spaces_private_fork : ∃ p m s₁ s₂ M,
    (userinit 1024 (Page.fill 0) [1]).run (bootMem 1024) = .done p m ∧
    Kernel.step (.booted 0 p m) (.fork 0 1 (Page.fill 0)) = some s₁ ∧
    s₁.spaces 0 = some M ∧ s₁.spaces 1 = some M ∧
    s₁.step (.store 1 PGSIZE 7) = some s₂ ∧
    s₂.spaces 0 = some M ∧ s₂.spaces 1 = some (M.store PGSIZE 7) := by
  obtain ⟨p, m, hboot, hsound, hsz, ⟨pg, hpg⟩, l, hlen, hown⟩ :=
    userinit_sound (Page.fill 0) 0 (show 0 < 1024 by decide) (by decide)
      (show ([1] : List UInt8).length < PGSIZE by decide)
  have hslot : (Kernel.booted 0 p m).slot 0 = some p := by simp [Kernel.booted]
  have hfree : (Kernel.booted 0 p m).slot 1 = none := by simp [Kernel.booted]
  have hmaps : Exactly m.ram p.pgdir p.sz := (hsound.exact 0 p hslot).2
  have hcost : forkCost m p.pgdir p.sz ≤ l.length := by
    have htables : tables [1] = 3 := by decide
    rw [hsz] at hmaps ⊢
    rw [forkCost, show 2 * PGSIZE % 2 ^ 32 = 2 * PGSIZE by decide, copied_first hmaps, htables]
    change l.length + 6 + 1024 = 57344 at hlen
    change 1 + (1 + (1 + 3)) ≤ l.length
    omega
  obtain ⟨out, m', hrun, -⟩ := (wp_noPanic_iff _).1
    (wp_forkPages (Page.fill 0) hown (roots_some hslot)
      (show (Kernel.booted 0 p m).roots 1 = none by simp [Kernel.roots, hfree])
      (fun w h1 h2 => hmaps.isSome h1 h2) (Or.inr hcost))
  obtain ⟨s₁, hfork⟩ : ∃ s₁, Kernel.step (.booted 0 p m) (.fork 0 1 (Page.fill 0)) = some s₁ := by
    rw [← Option.isSome_iff_exists, Kernel.step, hslot, Option.bind_some, hfree,
      if_pos Option.isNone_none]
    change (after ((forkPages (Page.fill 0) p.pgdir p.sz).run m) _).isSome
    rw [hrun]
    rfl
  have hreach : Reach Kernel.step anyStep (.booted 0 p m) s₁ := .step .init trivial hfork
  obtain ⟨M, hM, hspaces₁⟩ := Moves.of_fork
    (spaces_private (by decide) (by decide) (by decide) hboot .init hfork)
  have hM₁ : s₁.spaces 1 = some M := by rw [hspaces₁, update_self]
  have hpage : M.page (pageOf PGSIZE) = some (PTE_W ||| PTE_U ||| PTE_P, pg) := by
    rw [spaces_some hslot] at hM
    have hone : pageOf PGSIZE < UPAGES := by decide
    rw [← Option.some.inj hM]
    simp only [spaceOf, if_pos hone]
    exact hpg
  obtain ⟨s₂, hstore⟩ := step_store (b := 7) hM₁ hpage (by decide)
  obtain ⟨M', hM', hspaces₂⟩ := Moves.of_store
    (spaces_private (by decide) (by decide) (by decide) hboot hreach hstore)
  obtain rfl : M = M' := Option.some.inj (hM₁.symm.trans hM')
  have hM₀ : s₁.spaces 0 = some M := by
    rw [hspaces₁, update_of_ne (by decide), hM]
  refine ⟨p, m, s₁, s₂, M, hboot, hfork, hM₀, hM₁, hstore, ?_, ?_⟩
  · rw [hspaces₂, update_of_ne (by decide), hM₀]
  · rw [hspaces₂, update_self]

end Runs

end Xv6.Sys
