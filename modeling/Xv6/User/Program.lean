import Xv6.Lib.Machine
import Xv6.User.Alloc

/-!
# Programs over the heap

A program calls `malloc` and `free` and writes to the blocks it has.  In every state it can
reach, the heap is in order and its pointers are those of the live blocks; every call
returns.

* `Client.Tidy` — the invariant.
* `Client.Tidy.step` — what one call or write keeps.
* `heap_correct` — the allocator, over every run.
-/

namespace Xv6.User

open Lib Function List

variable {base lo : ℕ} {grants : ℕ → Bool} {bs L R : List Block} {b c : Block} {s s' : Client}

/-! ## More fuel changes nothing -/

section Fuel

variable {h : Heap} {bp p prevp nunits fuel fuel' : ℕ}

theorem search_mono {q : ℕ} (hs : h.search bp fuel p = some q) (hle : fuel ≤ fuel') :
    h.search bp fuel' p = some q := by
  induction fuel generalizing p fuel' with
  | zero => cases hs
  | succ fuel ih =>
    obtain ⟨k, rfl⟩ := Nat.exists_eq_add_of_lt hle
    by_cases hp : Stops h bp p
    · rw [search_of_stops hp] at hs ⊢
      exact hs
    · rw [search_of_not_stops hp] at hs ⊢
      exact ih hs (Nat.le_add_right fuel k)

theorem free_mono {ptr : ℕ} {h' : Heap} (hs : h.free fuel ptr = some h') (hle : fuel ≤ fuel') :
    h.free fuel' ptr = some h' := by
  rw [Heap.free] at hs ⊢
  split_ifs at hs ⊢ with hptr
  · exact hs
  · obtain ⟨q, hq, hins⟩ := Option.map_eq_some_iff.1 hs
    rw [search_mono hq hle]
    exact congrArg some hins

theorem morecore_mono {r : ℕ × Heap} (hs : h.morecore grants fuel nunits = some r)
    (hle : fuel ≤ fuel') :
    h.morecore grants fuel' nunits = some r := by
  rw [Heap.morecore] at hs ⊢
  split at hs
  · exact hs
  · obtain ⟨h', hfree, hr⟩ := Option.map_eq_some_iff.1 hs
    rw [free_mono hfree hle]
    exact congrArg some hr

theorem mallocLoop_mono {r : ℕ × Heap} (hs : h.mallocLoop grants nunits fuel prevp p = some r)
    (hle : fuel ≤ fuel') : h.mallocLoop grants nunits fuel' prevp p = some r := by
  induction fuel generalizing h prevp p fuel' with
  | zero => cases hs
  | succ fuel ih =>
    obtain ⟨k, rfl⟩ := Nat.exists_eq_add_of_lt hle
    have hk : fuel ≤ fuel + k := Nat.le_add_right fuel k
    change h.mallocLoop grants nunits (fuel + k + 1) prevp p = some r
    rw [Heap.mallocLoop] at hs ⊢
    split_ifs at hs ⊢ with hfit hfreep
    · exact hs
    · cases hmore : h.morecore grants fuel nunits with
      | none =>
        rw [hmore] at hs
        cases hs
      | some r' =>
        rw [hmore] at hs
        rw [morecore_mono hmore hk]
        dsimp only at hs ⊢
        split_ifs at hs ⊢ with hnull
        · exact hs
        · exact ih hs hk
    · exact ih hs hk

end Fuel

/-! ## The invariant -/

/-- Nothing else starts where a program writes. -/
theorem Ordered.scribble {h : Heap} (ho : Ordered base lo h bs) {a v w : ℕ} (hb : ∀ b ∈ bs,
    b.addr ≠ a)
    (hbase : base ≠ a) :
    Ordered base lo { h with next := update h.next a v, size := update h.size a w } bs where
  tiled := ho.tiled
  apart := ho.apart
  sized b hmem := (update_of_ne (hb b hmem) ..).trans (ho.sized b hmem)
  size_base := (update_of_ne hbase ..).trans ho.size_base
  ring := by
    refine ho.ring.move (fun u hu => update_of_ne ?_ ..) (update_of_ne hbase ..)
    obtain ⟨b, hmem, -, rfl⟩ := mem_frees.1 hu
    exact hb b hmem
  rover := ho.rover

/-- The heap is in order, once it is made, and the program's pointers are those of the live
blocks. -/
structure Client.Tidy (base lo : ℕ) (s : Client) (bs : List Block) : Prop where
  /-- The heap, as the first call of `malloc` makes it. -/
  ordered : Ordered base lo (s.heap.ensure base) bs
  /-- Before the first call there are no blocks. -/
  fresh : s.heap.freep = 0 → bs = []
  /-- The pointers. -/
  live : s.live.Perm ((lives bs).map Block.ptr)

/-- An ordered heap needs no making. -/
theorem Ordered.tidy (hpos : 0 < base) (hbase : base < lo) (ho : Ordered base lo s.heap bs)
    (hlive : s.live.Perm ((lives bs).map Block.ptr)) : s.Tidy base lo bs := by
  have hne := ho.freep_ne hpos hbase
  refine ⟨?_, fun h₀ => absurd h₀ hne, hlive⟩
  rw [Heap.ensure, if_neg hne]
  exact ho

/-- Once made, the heap is in order as it is. -/
theorem Client.Tidy.made (h : s.Tidy base lo bs) (hne : s.heap.freep ≠ 0) :
    Ordered base lo s.heap bs := by
  have ho := h.ordered
  rwa [Heap.ensure, if_neg hne] at ho

/-- A heap with a block has been made. -/
theorem Client.Tidy.freep_ne (h : s.Tidy base lo bs) (hb : b ∈ bs) : s.heap.freep ≠ 0 := by
  intro h₀
  rw [h.fresh h₀] at hb
  cases hb

theorem Client.Tidy.block (h : s.Tidy base lo bs) {ptr : ℕ} (hptr : ptr ∈ s.live) :
    Ordered base lo s.heap bs ∧ ∃ b ∈ bs, b.free = false ∧ b.ptr = ptr := by
  obtain ⟨b, hb, he⟩ := mem_map.1 (h.live.mem_iff.1 hptr)
  have hmem := mem_filter.1 hb
  exact ⟨h.made (h.freep_ne hmem.1), b, hmem.1, by simpa using hmem.2, he⟩

/-- Before the first call, the heap is `BASE` alone. -/
theorem bootClient_tidy (base lo : ℕ) : (bootClient lo).Tidy base lo [] where
  ordered := ⟨rfl, isChain_nil, fun _ hb => (nomatch hb), update_self .., ⟨trivial, update_self ..⟩,
    mem_cons_self⟩
  fresh _ := rfl
  live := List.Perm.refl _

theorem Client.Tidy.malloc (grants : ℕ → Bool) (hpos : 0 < base) (hbase : base < lo)
    (h : s.Tidy base lo bs) {nbytes : ℕ} (hmax : Heap.unitsFor nbytes * HEADER_SIZE < 2 ^ 31) :
    ∃ k r, (∀ fuel, k ≤ fuel → s.heap.malloc base grants fuel nbytes = some r) ∧
      Allocated base lo grants (Heap.unitsFor nbytes) (s.heap.ensure base) bs r :=
  h.ordered.mallocLoop hpos hbase (Nat.succ_pos _) hmax

theorem Client.Tidy.free (hpos : 0 < base) (hbase : base < lo) (h : s.Tidy base lo bs) {ptr : ℕ}
    (hptr : ptr ∈ s.live) :
    ∃ k h', (∀ fuel, k ≤ fuel → s.heap.free fuel ptr = some h') ∧
      ∃ bs', (Client.mk h' (s.live.erase ptr)).Tidy base lo bs' := by
  obtain ⟨ho, b, hb, hbf, rfl⟩ := h.block hptr
  obtain ⟨L, R, rfl⟩ := append_of_mem hb
  obtain ⟨k, h', hk, bs', hbs', hlives, -⟩ := ho.free hbase hbf
  refine ⟨k, h', hk, bs', hbs'.tidy hpos hbase ?_⟩
  have hlive : s.live.Perm (b.ptr :: (lives bs').map Block.ptr) := by
    have hperm := h.live
    rw [lives_append, lives_cons_false hbf] at hperm
    rw [hlives]
    exact hperm.trans (perm_middle.map Block.ptr)
  have herase := hlive.erase b.ptr
  rwa [erase_cons_head] at herase

theorem Allocated.tidy (hpos : 0 < base) (hbase : base < lo) (h : s.Tidy base lo bs) {nunits : ℕ}
    {r : ℕ × Heap} (hr : Allocated base lo grants nunits (s.heap.ensure base) bs r) :
    ∃ bs', (Client.mk r.2 (if r.1 = 0 then s.live else r.1 :: s.live)).Tidy base lo bs' := by
  obtain ⟨bs', hbs', ⟨hnull, -, hlives⟩ | ⟨c, hc, -, hperm⟩⟩ := hr
  · refine ⟨bs', hbs'.tidy hpos hbase ?_⟩
    rw [if_pos hnull, hlives]
    exact h.live
  · refine ⟨bs', hbs'.tidy hpos hbase ?_⟩
    have hne : r.1 ≠ 0 := by
      rw [hc]
      exact Nat.succ_ne_zero (c.addr + 15)
    rw [if_neg hne, hc]
    exact (h.live.cons c.ptr).trans (hperm.map Block.ptr).symm

/-- What one call or write keeps. -/
theorem Client.Tidy.step (hpos : 0 < base) (hbase : base < lo) (h : s.Tidy base lo bs) {a : HeapAct}
    (hok : Proper s a) (hs : heapStep base grants s a = some s') : ∃ bs', s'.Tidy base lo bs' := by
  cases a with
  | malloc fuel nbytes =>
    obtain ⟨r, hr, rfl⟩ := Option.map_eq_some_iff.1 hs
    obtain ⟨k, r', hk, halloc⟩ := h.malloc grants hpos hbase hok
    have hsame : r' = r := Option.some.inj
      ((hk _ (le_max_left k fuel)).symm.trans (mallocLoop_mono hr (le_max_right k fuel)))
    exact (hsame ▸ halloc).tidy hpos hbase h
  | free fuel ptr =>
    obtain ⟨h', hh', rfl⟩ := Option.map_eq_some_iff.1 hs
    obtain ⟨k, h'', hk, htidy⟩ := h.free hpos hbase hok
    have hsame : h'' = h' := Option.some.inj
      ((hk _ (le_max_left k fuel)).symm.trans (free_mono hh' (le_max_right k fuel)))
    exact hsame ▸ htidy
  | write a v w =>
    cases hs
    obtain ⟨ptr, hptr, hlow, hhigh⟩ := hok
    obtain ⟨ho, c, hc, -, rfl⟩ := h.block hptr
    have hsub : c.ptr - HEADER_SIZE = c.addr := Nat.add_sub_cancel c.addr 16
    rw [hsub, ho.sized c hc] at hhigh
    change c.addr + 16 * 1 ≤ a at hlow
    change a < c.stop at hhigh
    have hlo := (ho.tiled.bounds.2 c hc).1
    have hstarts : ∀ b ∈ bs, b.addr ≠ a := by
      intro b hb he
      rcases ho.tiled.disjoint hb hc with rfl | hle | hle
      · omega
      · have := (ho.tiled.bounds.2 b hb).2.1
        omega
      · omega
    exact ⟨bs, (ho.scribble hstarts (by omega)).tidy hpos hbase h.live⟩

/-- The invariant holds in every run. -/
theorem tidy_of_reach (hpos : 0 < base) (hbase : base < lo)
    (h : Reach (heapStep base grants) Proper (bootClient lo) s) : ∃ bs, s.Tidy base lo bs := by
  refine h.invariant (I := fun s => ∃ bs, s.Tidy base lo bs) ⟨[], bootClient_tidy base lo⟩ ?_
  rintro s a s' ⟨bs, htidy⟩ hok hs
  exact htidy.step hpos hbase hok hs

/-! ## The allocator -/

/-- A block of the units that `malloc` looks for has room for the request. -/
theorem unitsFor_room (nbytes : ℕ) : nbytes + HEADER_SIZE ≤ HEADER_SIZE * Heap.unitsFor nbytes := by
  rw [Heap.unitsFor]
  change nbytes + 16 ≤ 16 * ((nbytes + 16 - 1) / 16 + 1)
  omega

/-- A new live block is apart from those there were. -/
theorem Ordered.apart_of_perm {h : Heap} {bs' : List Block} (ho : Ordered base lo h bs')
    (hperm : (lives bs').Perm (c :: lives bs)) :
    ∀ b ∈ lives bs, b.stop ≤ c.addr ∨ c.stop ≤ b.addr := by
  have hpair : (lives bs').Pairwise fun a b => a.stop ≤ b.addr ∨ b.stop ≤ a.addr :=
    (ho.tiled.pairwise.filter _).imp Or.inl
  have hcons := (hperm.pairwise_iff fun {a b} hab => hab.symm).1 hpair
  exact fun b hb => ((pairwise_cons.1 hcons).1 b hb).symm

/-- **The heap allocator.**  In every state a program can reach by `malloc`, by `free` of
pointers it has and by writes to its blocks, whatever `sbrk` grants: there are blocks that
tile the memory from `sbrk`, each byte in one of them, with the sizes in their headers, and
no two free ones next to each other; the program's pointers are those of the live ones; the
list is circular, goes through the free ones in address order, and wraps at `BASE` only;
`free` of a pointer the program has returns; and `malloc` of a size that fits in an `i32`
returns, null only if `sbrk` refused, and else a block with room for the request apart from
every live block. -/
theorem heap_correct (hpos : 0 < base) (hbase : base + HEADER_SIZE ≤ lo)
    (h : Reach (heapStep base grants) Proper (bootClient lo) s) :
    ∃ bs : List Block,
      Tiled lo bs s.heap.brk ∧
      (∀ a, lo ≤ a ∧ a < s.heap.brk ↔ ∃ b ∈ bs, b.addr ≤ a ∧ a < b.stop) ∧
      bs.Pairwise (fun a b => a.stop ≤ b.addr) ∧
      (∀ b ∈ bs, s.heap.size b.addr = b.units) ∧
      Apart bs ∧
      s.live.Perm ((lives bs).map Block.ptr) ∧
      (if s.heap.freep = 0 then bs = []
        else s.heap.freep ∈ base :: frees bs ∧ Ring s.heap.next base (frees bs) ∧
          (base :: frees bs).Pairwise (· < ·)) ∧
      (∀ ptr ∈ s.live, ∃ k h', ∀ fuel, k ≤ fuel → s.heap.free fuel ptr = some h') ∧
      ∀ nbytes, Heap.unitsFor nbytes * HEADER_SIZE < 2 ^ 31 →
        ∃ k ptr h', (∀ fuel, k ≤ fuel → s.heap.malloc base grants fuel nbytes = some (ptr, h')) ∧
          ((ptr = 0 ∧ grants s.heap.calls = false) ∨
            ∃ c : Block, ptr = c.ptr ∧ ptr + nbytes ≤ c.stop ∧ lo ≤ c.addr ∧ c.stop ≤ h'.brk ∧
              ∀ b ∈ lives bs, b.stop ≤ c.addr ∨ c.stop ≤ b.addr) := by
  have hlt : base < lo := by
    change base + 16 ≤ lo at hbase
    omega
  obtain ⟨bs, htidy⟩ := tidy_of_reach hpos hlt h
  have hcalls : (s.heap.ensure base).calls = s.heap.calls := by
    rw [Heap.ensure]
    split_ifs <;> rfl
  have htiled : Tiled lo bs s.heap.brk := by
    have ht := htidy.ordered.tiled
    rw [Heap.ensure] at ht
    split_ifs at ht <;> exact ht
  refine ⟨bs, htiled, htiled.covers, htiled.pairwise, ?_, htidy.ordered.apart, htidy.live,
    ?_, ?_, ?_⟩
  · exact fun b hb => (htidy.made (htidy.freep_ne hb)).sized b hb
  · split_ifs with h₀
    · exact htidy.fresh h₀
    · have ho := htidy.made h₀
      exact ⟨ho.rover, ho.ring, ho.tiled.sorted_frees hlt⟩
  · intro ptr hptr
    obtain ⟨k, h', hk, -⟩ := htidy.free hpos hlt hptr
    exact ⟨k, h', hk⟩
  · intro nbytes hmax
    obtain ⟨k, ⟨ptr, h'⟩, hk, bs', hbs', halloc⟩ := htidy.malloc grants hpos hlt hmax
    refine ⟨k, ptr, h', hk, halloc.imp (fun hnull => ⟨hnull.1, hcalls ▸ hnull.2.1⟩) ?_⟩
    rintro ⟨c, hc, hunits, hperm⟩
    have hcmem : c ∈ bs' := mem_of_mem_filter (hperm.mem_iff.2 mem_cons_self)
    have hbounds := hbs'.tiled.bounds.2 c hcmem
    refine ⟨c, hc, ?_, hbounds.1, hbounds.2.2, hbs'.apart_of_perm hperm⟩
    have hroom := unitsFor_room nbytes
    rw [show ptr = c.ptr from hc, Block.ptr, Block.stop, hunits]
    change nbytes + 16 ≤ 16 * _ at hroom
    change c.addr + 16 * 1 + nbytes ≤ c.addr + 16 * _
    omega

instance (s : Client) (a : HeapAct) : Decidable (Proper s a) := by
  cases a <;> unfold Proper <;> infer_instance

/-- A program calls `malloc` twice, writes to the first block and frees it. -/
def fourActs : List HeapAct := [.malloc 4 100, .malloc 4 20, .write 65480 7 7, .free 4 65456]

/-- The heap after these calls. -/
theorem heap_correct_fourActs : ∃ s, Reach (heapStep 16 fun _ => true) Proper (bootClient 32) s ∧
    s.live = [65408] ∧ ∃ bs, Tiled 32 bs s.heap.brk ∧ s.live.Perm ((lives bs).map Block.ptr) := by
  obtain ⟨s, hs⟩ := Option.isSome_iff_exists.1
    (by decide +kernel : (exec (heapStep 16 fun _ => true) (fun s a => decide (Proper s a))
      (bootClient 32)
      fourActs).isSome = true)
  have hlive : (exec (heapStep 16 fun _ => true) (fun s a => decide (Proper s a)) (bootClient 32)
      fourActs).map (fun s => s.live) = some [65408] := by decide +kernel
  have hreach : Reach (heapStep 16 fun _ => true) Proper (bootClient 32) s :=
    reach_of_exec (fun _ _ h => of_decide_eq_true h) .init hs
  rw [hs, Option.map_some, Option.some.injEq] at hlive
  obtain ⟨bs, htiled, -, -, -, -, hperm, -⟩ := heap_correct (by decide) (by decide) hreach
  exact ⟨s, hreach, hlive, bs, htiled, hperm⟩

end Xv6.User
