import Xv6.User.Heap

/-!
# Allocation keeps the heap in order

The loop of `malloc` goes once around the list.  If it meets a block that is large enough it
takes it, or the tail of it; if it comes back to `FREEP` it asks `sbrk` for more, and the
memory it is given is large enough for the next time around.

* `Ordered.take` — taking a block.
* `Ordered.granted` — what `morecore` adds.
* `Ordered.mallocLoop` — the loop returns, with a new live block or with null.
-/

namespace Xv6.User

open Lib Function List

variable {base lo : ℕ} {h : Heap} {bs L R : List Block} {b c : Block}
variable {grants : ℕ → Bool} {nunits prevp p u fuel : ℕ}

/-- The pointer a program has to a block. -/
def Block.ptr (b : Block) : ℕ := addUnits b.addr 1

/-! ## Taking a block -/

/-- An exact fit leaves the list. -/
theorem Ordered.unlink (hbase : base < lo) (ho : Ordered base lo h (L ++ b :: R))
    (hb : b.free = true) :
    Ordered base lo
      { h with next := update h.next (before base L) (h.next b.addr), freep := before base L }
      (L ++ { b with free := false } :: R) := by
  have hnodup := ho.nodup hbase
  have hring := ho.ring
  rw [frees_append, frees_cons_true hb] at hring hnodup
  obtain ⟨hlinks, htail⟩ := tail_append.1 hring
  obtain ⟨-, hrest⟩ := tail_cons.1 htail
  rw [← cons_append] at hnodup
  obtain ⟨hndL, hndR, hdisj⟩ := nodup_append.1 hnodup
  obtain ⟨hapL, hapR, -⟩ := isChain_append.1 ho.apart
  have hfr : frees (L ++ { b with free := false } :: R) = frees L ++ frees R := by
    rw [frees_append, frees_cons_false rfl]
  refine ⟨?_, ?_, fun c hc => ?_, ho.size_base, ?_, ?_⟩
  · obtain ⟨mid, hL, hR⟩ := tiled_append.1 ho.tiled
    exact tiled_append.2 ⟨mid, hL, hR⟩
  · refine isChain_append.2 ⟨hapL, isChain_cons.2 ⟨fun r _ => ?_, (isChain_cons.1 hapR).2⟩,
      fun a _ c hc => ?_⟩
    · exact fun hf => absurd hf.1 Bool.false_ne_true
    · cases hc
      exact fun hf => absurd hf.2 Bool.false_ne_true
  · simp only [mem_append, mem_cons] at hc
    rcases hc with hc | rfl | hc
    · exact ho.sized c (by simp [hc])
    · exact ho.sized b (by simp)
    · exact ho.sized c (by simp [hc])
  · rw [hfr]
    refine tail_append.2 ⟨hlinks.congr (fun a _ hne => update_of_ne hne ..) hndL, ?_⟩
    refine hrest.move (fun a ha => update_of_ne ?_ ..) (update_self ..)
    exact (hdisj _ (before_mem base L) a (mem_cons_of_mem _ ha)).symm
  · exact before_mem_append base L _

/-- A larger block keeps its place on the list and loses its tail. -/
theorem Ordered.shrink (hbase : base < lo) (ho : Ordered base lo h (L ++ b :: R))
    (hb : b.free = true) (hn : 0 < nunits) (hlt : nunits < b.units) :
    Ordered base lo
      { h with
        size := update (update h.size b.addr (b.units - nunits))
          (addUnits b.addr (b.units - nunits)) nunits
        freep := before base L }
      (L ++ ⟨b.addr, b.units - nunits, true⟩ ::
        ⟨addUnits b.addr (b.units - nunits), nunits, false⟩ :: R) := by
  obtain ⟨mid, hL, hmid, hpos, hR⟩ := tiled_append.1 ho.tiled
  subst hmid
  obtain ⟨hapL, hapR, hseam⟩ := isChain_append.1 ho.apart
  obtain ⟨hlo, -, hbelow, habove⟩ := ho.tiled.around
  -- where the tail starts, inside the block
  have hq : b.addr < addUnits b.addr (b.units - nunits) := by
    change b.addr < b.addr + 16 * (b.units - nunits)
    omega
  have hend : addUnits (addUnits b.addr (b.units - nunits)) nunits = b.stop := by
    rw [← addUnits_add, Nat.sub_add_cancel hlt.le]
    rfl
  have hqs : addUnits b.addr (b.units - nunits) < b.stop := by
    change b.addr + 16 * (b.units - nunits) < b.addr + 16 * b.units
    omega
  have hkeep : ∀ a, a ≠ b.addr → a ≠ addUnits b.addr (b.units - nunits) →
      update (update h.size b.addr (b.units - nunits)) (addUnits b.addr (b.units - nunits))
        nunits a =
        h.size a := fun a h₁ h₂ => (update_of_ne h₂ ..).trans (update_of_ne h₁ ..)
  have hfr : frees (L ++ ⟨b.addr, b.units - nunits, true⟩ ::
      ⟨addUnits b.addr (b.units - nunits), nunits, false⟩ :: R) = frees (L ++ b :: R) := by
    rw [frees_append, frees_append, frees_cons_true rfl, frees_cons_false rfl, frees_cons_true hb]
  refine ⟨?_, ?_, fun c hc => ?_, ?_, ?_, ?_⟩
  · refine tiled_append.2 ⟨b.addr, hL, rfl, Nat.sub_pos_of_lt hlt, rfl, hn, ?_⟩
    change Tiled (addUnits (addUnits b.addr (b.units - nunits)) nunits) R h.brk
    rw [hend]
    exact hR
  · refine isChain_append.2 ⟨hapL, isChain_cons.2 ⟨fun r hr => ?_, isChain_cons.2
      ⟨fun r _ => ?_, (isChain_cons.1 hapR).2⟩⟩, fun a ha c hc => ?_⟩
    · cases hr
      exact fun hf => absurd hf.2 Bool.false_ne_true
    · exact fun hf => absurd hf.1 Bool.false_ne_true
    · cases hc
      exact fun hf => hseam a ha b rfl ⟨hf.1, hb⟩
  · simp only [mem_append, mem_cons] at hc
    rcases hc with hc | rfl | rfl | hc
    · have := hbelow c hc
      exact (hkeep c.addr (by omega) (by omega)).trans (ho.sized c (by simp [hc]))
    · exact (update_of_ne hq.ne ..).trans (update_self ..)
    · exact update_self ..
    · have := habove c hc
      exact (hkeep c.addr (by omega) (by omega)).trans (ho.sized c (by simp [hc]))
  · exact (hkeep base (by omega) (by omega)).trans ho.size_base
  · rw [hfr]
    exact ho.ring
  · exact before_mem_append base L _

/-- What `malloc` takes is a new live block. -/
theorem Ordered.take (hbase : base < lo) (ho : Ordered base lo h bs) (hn : 0 < nunits)
    (hp : prevp ∈ base :: frees bs) (hu : u ∈ base :: frees bs) (he : h.next prevp = u)
    (hfit : nunits ≤ h.size u) :
    ∃ bs' c, Ordered base lo (h.take nunits prevp u).2 bs' ∧ (h.take nunits prevp u).1 = c.ptr ∧
      c.units = nunits ∧ (lives bs').Perm (c :: lives bs) := by
  have hub : u ≠ base := by
    rintro rfl
    rw [ho.size_base] at hfit
    omega
  obtain ⟨b, hb, hbf, rfl⟩ := mem_frees.1 ((mem_cons.1 hu).resolve_left hub)
  obtain ⟨L, R, rfl⟩ := append_of_mem hb
  have hsize : h.size b.addr = b.units := ho.sized b hb
  -- one node only leads to the block
  have hprev : prevp = before base L := by
    have hring := ho.ring
    rw [frees_append, frees_cons_true hbf] at hring
    have hnext : h.next (before base L) = b.addr := (tail_cons.1 (tail_append.1 hring).2).1
    exact ho.ring.next_inj (ho.nodup hbase) hp (before_mem_append base L _) (he.trans hnext.symm)
  rw [hsize] at hfit
  rcases hfit.eq_or_lt with hexact | hlt
  · have htake : h.take nunits prevp b.addr = (b.ptr, { h with
        next := update h.next (before base L) (h.next b.addr), freep := before base L }) := by
      rw [Heap.take, if_pos (hsize.trans hexact.symm), hprev]
      rfl
    rw [htake]
    refine ⟨_, { b with free := false }, ho.unlink hbase hbf, rfl, hexact.symm, ?_⟩
    rw [lives_append, lives_append, lives_cons_true hbf, lives_cons_false rfl]
    exact perm_middle
  · have htake : h.take nunits prevp b.addr =
        (Block.ptr ⟨addUnits b.addr (b.units - nunits), nunits, false⟩, { h with
          size := update (update h.size b.addr (b.units - nunits))
            (addUnits b.addr (b.units - nunits)) nunits
          freep := before base L }) := by
      rw [Heap.take, if_neg (by omega), hprev, hsize]
      rfl
    rw [htake]
    refine ⟨_, _, ho.shrink hbase hbf hn hlt, rfl, rfl, ?_⟩
    rw [lives_append, lives_append, lives_cons_true hbf, lives_cons_true rfl, lives_cons_false rfl]
    exact perm_middle

/-! ## Growing the heap -/

/-- Memory from `sbrk` is a block at the end. -/
theorem Ordered.extend (hbase : base < lo) (ho : Ordered base lo h bs) (hu : 0 < u) :
    Ordered base lo
      { h with size := update h.size h.brk u, brk := addUnits h.brk u, calls := h.calls + 1 }
      (bs ++ [⟨h.brk, u, false⟩]) := by
  have hbounds := ho.tiled.bounds
  have hfr : frees (bs ++ [⟨h.brk, u, false⟩]) = frees bs := by
    rw [frees_append, frees_cons_false rfl]
    exact List.append_nil _
  refine ⟨tiled_append.2 ⟨h.brk, ho.tiled, rfl, hu, rfl⟩, ?_, fun c hc => ?_, ?_, ?_, ?_⟩
  · refine isChain_append.2 ⟨ho.apart, isChain_singleton _, fun a _ c hc => ?_⟩
    cases hc
    exact fun hf => absurd hf.2 Bool.false_ne_true
  · rcases mem_append.1 hc with hc | hc
    · have := hbounds.2 c hc
      exact (update_of_ne (by omega) ..).trans (ho.sized c hc)
    · rw [mem_singleton.1 hc]
      exact update_self ..
  · exact (update_of_ne (by omega) ..).trans ho.size_base
  · rw [hfr]
    exact ho.ring
  · rw [hfr]
    exact ho.rover

theorem morecore_refused (hg : grants h.calls = false) :
    h.morecore grants fuel nunits = some (0, { h with calls := h.calls + 1 }) := by
  rw [Heap.morecore, Heap.sbrk, if_neg (by rw [hg]; decide)]

/-- What `sbrk` grants makes room for the request. -/
theorem Ordered.granted (hbase : base < lo) (ho : Ordered base lo h bs) (hg : grants h.calls = true)
    (hn : nunits * HEADER_SIZE < 2 ^ 31) :
    ∃ k h', (∀ fuel, k ≤ fuel → h.morecore grants fuel nunits = some (h'.freep, h')) ∧
      ∃ bs', Ordered base lo h' bs' ∧ lives bs' = lives bs ∧ ∃ c ∈ bs', c.free = true ∧
        nunits ≤ c.units := by
  obtain ⟨units, hunits⟩ : ∃ units, (if nunits < 4096 then 4096 else nunits) = units := ⟨_, rfl⟩
  have hle : nunits ≤ units ∧ 0 < units ∧ units * HEADER_SIZE < 2 ^ 31 := by
    change _ ∧ _ ∧ units * 16 < _
    change nunits * 16 < _ at hn
    split_ifs at hunits <;> omega
  obtain ⟨k, h', hk, bs', hbs', hlives, c, hc, hcf, hcu⟩ := (ho.extend hbase hle.2.1).free hbase rfl
  refine ⟨k, h', fun fuel hfuel => ?_, bs', hbs', hlives.trans (List.append_nil _), c, hc, hcf,
    hle.1.trans hcu⟩
  have hbrk : ((h.brk : ℤ) + ((units * HEADER_SIZE : ℕ) : ℤ)).toNat = addUnits h.brk units := by
    rw [addUnits]
    change ((h.brk : ℤ) + ((units * 16 : ℕ) : ℤ)).toNat = h.brk + 16 * units
    omega
  have hfree := hk fuel hfuel
  rw [Heap.morecore, hunits, Heap.sbrk, if_pos hg, asI32_of_lt hle.2.2, hbrk]
  exact congrArg (Option.map fun h => (h.freep, h)) hfree

/-! ## The loop -/

theorem mallocLoop_fit (hfit : nunits ≤ h.size p) :
    h.mallocLoop grants nunits (fuel + 1) prevp p = some (h.take nunits prevp p) := by
  rw [Heap.mallocLoop, if_pos hfit]

theorem mallocLoop_next (hfit : h.size p < nunits) (hp : p ≠ h.freep) :
    h.mallocLoop grants nunits (fuel + 1) prevp p = h.mallocLoop grants nunits fuel p
      (h.next p) := by
  rw [Heap.mallocLoop, if_neg hfit.not_ge, if_neg hp]

theorem mallocLoop_refused (hfit : h.size p < nunits) (hp : p = h.freep)
    (hg : grants h.calls = false) :
    h.mallocLoop grants nunits (fuel + 1) prevp p = some (0, { h with calls := h.calls + 1 }) := by
  rw [Heap.mallocLoop, if_neg hfit.not_ge, if_pos hp, morecore_refused hg]
  rfl

theorem mallocLoop_granted {h' : Heap} (hfit : h.size p < nunits) (hp : p = h.freep)
    (hmore : h.morecore grants fuel nunits = some (h'.freep, h')) (hne : h'.freep ≠ 0) :
    h.mallocLoop grants nunits (fuel + 1) prevp p =
      h'.mallocLoop grants nunits fuel h'.freep (h'.next h'.freep) := by
  rw [Heap.mallocLoop, if_neg hfit.not_ge, if_pos hp, hmore]
  exact if_neg hne

/-- A way that ends at `FREEP` without repetitions passes it nowhere else. -/
theorem ne_freep_of_way {f y : ℕ} {w : List ℕ} (hlast : w.getLastD y = f) (hd : (y :: w).Nodup)
    (hw : w ≠ []) :
    y ≠ f := by
  rintro rfl
  obtain ⟨z, w, rfl⟩ := exists_cons_of_ne_nil hw
  rw [getLastD_cons] at hlast
  exact (nodup_cons.1 hd).1 (hlast ▸ getLastD_mem_cons)

/-- A loop that walks past the nodes other than `FREEP` that do not fit stops at the first fit, or
at `FREEP` if there is none. -/
theorem walk_stops {α : Type} (f : ℕ → ℕ → ℕ → α) {w : List ℕ}
    (hstep : ∀ fuel prevp p, h.size p < nunits → p ≠ h.freep →
      f (fuel + 1) prevp p = f fuel p (h.next p))
    (hlinks : Links h.next prevp w) (hlast : w.getLastD prevp = h.freep) (hd : w.Nodup)
      (hw : w ≠ []) :
    ∃ pr ∈ prevp :: w, ∃ u ∈ w, h.next pr = u ∧
      (nunits ≤ h.size u ∨ u = h.freep ∧ ∀ v ∈ w, h.size v < nunits) ∧
      ∀ fuel, ∃ j, fuel ≤ j ∧ f (fuel + w.length) prevp (h.next prevp) = f (j + 1) pr u := by
  induction w generalizing prevp with
  | nil => exact absurd rfl hw
  | cons y w ih =>
    obtain ⟨hy, hrest⟩ := hlinks
    rw [getLastD_cons] at hlast
    have hhere : ∀ fuel, ∃ j, fuel ≤ j ∧ f (fuel + (y :: w).length) prevp (h.next prevp) =
      f (j + 1) prevp y := by
      intro fuel
      refine ⟨fuel + w.length, Nat.le_add_right _ _, ?_⟩
      rw [hy]
      rfl
    by_cases hyfit : nunits ≤ h.size y
    · exact ⟨prevp, mem_cons_self, y, mem_cons_self, hy, Or.inl hyfit, hhere⟩
    · by_cases hnil : w = []
      · subst hnil
        refine ⟨prevp, mem_cons_self, y, mem_cons_self, hy, Or.inr ⟨hlast, fun v hv => ?_⟩, hhere⟩
        rw [mem_singleton.1 hv]
        exact not_le.1 hyfit
      · have hyf := ne_freep_of_way (y := y) hlast hd hnil
        obtain ⟨pr, hpr, u, hu, hnext, hstop, hgo⟩ := ih hrest hlast (nodup_cons.1 hd).2 hnil
        refine ⟨pr, mem_cons_of_mem _ hpr, u, mem_cons_of_mem _ hu, hnext,
          hstop.imp_right ?_, fun fuel => ?_⟩
        · rintro ⟨huf, hall⟩
          refine ⟨huf, fun v hv => ?_⟩
          rcases mem_cons.1 hv with rfl | hv
          · exact not_le.1 hyfit
          · exact hall v hv
        · obtain ⟨j, hj, he⟩ := hgo fuel
          refine ⟨j, hj, ?_⟩
          rw [← he, hy]
          exact hstep _ _ _ (not_le.1 hyfit) hyf

/-- Once around the list, the loop takes the first fit. -/
theorem scan_fit (grants : ℕ → Bool) {w : List ℕ} (hlinks : Links h.next prevp w)
    (hlast : w.getLastD prevp = h.freep) (hd : w.Nodup) (hfit : ∃ u ∈ w, nunits ≤ h.size u) :
    ∃ pr ∈ prevp :: w, ∃ u ∈ w, h.next pr = u ∧ nunits ≤ h.size u ∧ ∀ fuel, w.length ≤ fuel →
      h.mallocLoop grants nunits fuel prevp (h.next prevp) = some (h.take nunits pr u) := by
  obtain ⟨v, hv, hvfit⟩ := hfit
  obtain ⟨pr, hpr, u, hu, hnext, hstop, hgo⟩ :=
    walk_stops (fun fuel prevp p => h.mallocLoop grants nunits fuel prevp p)
    (fun _ _ _ hsize hp => mallocLoop_next hsize hp) hlinks hlast hd (ne_nil_of_mem hv)
  have hufit : nunits ≤ h.size u := hstop.resolve_right fun hno => absurd hvfit (hno.2 v hv).not_ge
  refine ⟨pr, hpr, u, hu, hnext, hufit, fun fuel hfuel => ?_⟩
  obtain ⟨k, rfl⟩ := Nat.exists_eq_add_of_le' hfuel
  obtain ⟨j, -, he⟩ := hgo k
  exact he.trans (mallocLoop_fit hufit)

/-- If nothing fits, the loop comes to `FREEP`. -/
theorem scan_none (grants : ℕ → Bool) {w : List ℕ} (hlinks : Links h.next prevp w)
    (hlast : w.getLastD prevp = h.freep)
    (hd : w.Nodup) (hw : w ≠ []) (hfit : ∀ u ∈ w, h.size u < nunits) :
    ∃ pr, ∀ fuel, ∃ j, fuel ≤ j ∧ h.mallocLoop grants nunits (fuel + w.length) prevp
      (h.next prevp) =
      h.mallocLoop grants nunits (j + 1) pr h.freep := by
  obtain ⟨pr, -, u, hu, -, hstop, hgo⟩ :=
    walk_stops (fun fuel prevp p => h.mallocLoop grants nunits fuel prevp p)
    (fun _ _ _ hsize hp => mallocLoop_next hsize hp) hlinks hlast hd hw
  obtain ⟨rfl, -⟩ := hstop.resolve_left (hfit u hu).not_ge
  exact ⟨pr, hgo⟩

theorem Ordered.freep_ne (hpos : 0 < base) (hbase : base < lo) (ho : Ordered base lo h bs) :
    h.freep ≠ 0 := by
  have hrover := ho.rover
  rcases mem_cons.1 hrover with he | hmem
  · omega
  · obtain ⟨b, hb, -, he⟩ := mem_frees.1 hmem
    have := (ho.tiled.bounds.2 b hb).1
    omega

/-- What a call of `malloc` that returned `r` has done: null, and `sbrk` refused, or a block. -/
def Allocated (base lo : ℕ) (grants : ℕ → Bool) (nunits : ℕ) (h : Heap) (bs : List Block)
    (r : ℕ × Heap) :
    Prop :=
  ∃ bs', Ordered base lo r.2 bs' ∧
    ((r.1 = 0 ∧ grants h.calls = false ∧ lives bs' = lives bs) ∨
      ∃ c : Block, r.1 = c.ptr ∧ c.units = nunits ∧ (lives bs').Perm (c :: lives bs))

/-- With a fit on the list, the loop returns a block. -/
theorem Ordered.scan (grants : ℕ → Bool) (hbase : base < lo) (ho : Ordered base lo h bs)
    (hn : 0 < nunits) (hfit : ∃ u ∈ base :: frees bs, nunits ≤ h.size u) :
    ∃ k r, (∀ fuel, k ≤ fuel → h.mallocLoop grants nunits fuel h.freep (h.next h.freep) = some r) ∧
      ∃ bs' c, Ordered base lo r.2 bs' ∧ r.1 = c.ptr ∧ c.units = nunits ∧
        (lives bs').Perm (c :: lives bs) := by
  obtain ⟨w, hlinks, hlast, hd, hmem⟩ := ho.ring.around (ho.nodup hbase) ho.rover
  obtain ⟨u, hu, hufit⟩ := hfit
  obtain ⟨pr, hpr, v, hv, hnext, hvfit, hgo⟩ :=
    scan_fit grants hlinks hlast hd ⟨u, (hmem u).2 hu, hufit⟩
  have hprmem : pr ∈ base :: frees bs := by
    rcases mem_cons.1 hpr with rfl | hpr
    · exact ho.rover
    · exact (hmem pr).1 hpr
  exact ⟨w.length, _, hgo, ho.take hbase hn hprmem ((hmem v).1 hv) hnext hvfit⟩

/-- **The loop of `malloc`** returns, and what it returns is null only if `sbrk` refused. -/
theorem Ordered.mallocLoop (hpos : 0 < base) (hbase : base < lo) (ho : Ordered base lo h bs)
    (hn : 0 < nunits) (hmax : nunits * HEADER_SIZE < 2 ^ 31) :
    ∃ k r, (∀ fuel, k ≤ fuel → h.mallocLoop grants nunits fuel h.freep (h.next h.freep) = some r) ∧
      Allocated base lo grants nunits h bs r := by
  by_cases hfit : ∃ u ∈ base :: frees bs, nunits ≤ h.size u
  · obtain ⟨k, r, hk, bs', c, hbs', hc⟩ := ho.scan grants hbase hn hfit
    exact ⟨k, r, hk, bs', hbs', Or.inr ⟨c, hc⟩⟩
  · obtain ⟨w, hlinks, hlast, hd, hmem⟩ := ho.ring.around (ho.nodup hbase) ho.rover
    have hnone : ∀ u ∈ base :: frees bs, h.size u < nunits := fun u hu =>
      not_le.1 fun hle => hfit ⟨u, hu, hle⟩
    have hw : w ≠ [] := ne_nil_of_mem ((hmem base).2 mem_cons_self)
    obtain ⟨pr, hpr⟩ := scan_none grants hlinks hlast hd hw fun u hu => hnone u ((hmem u).1 hu)
    have hfreep := hnone _ ho.rover
    cases hg : grants h.calls with
    | false =>
      refine ⟨w.length, (0, { h with calls := h.calls + 1 }), fun fuel hfuel => ?_, bs, ?_,
        Or.inl ⟨rfl, hg, rfl⟩⟩
      · obtain ⟨i, rfl⟩ := Nat.exists_eq_add_of_le' hfuel
        obtain ⟨j, -, he⟩ := hpr i
        rw [he]
        exact mallocLoop_refused hfreep rfl hg
      · exact ⟨ho.tiled, ho.apart, ho.sized, ho.size_base, ho.ring, ho.rover⟩
    | true =>
      obtain ⟨k, h', hk, bs', hbs', hlives, c, hc, hcf, hcu⟩ := ho.granted hbase hg hmax
      have hfit' : ∃ u ∈ base :: frees bs', nunits ≤ h'.size u :=
        ⟨c.addr, mem_cons_of_mem _ (mem_frees.2 ⟨c, hc, hcf, rfl⟩), (hbs'.sized c hc).symm ▸ hcu⟩
      obtain ⟨k', r, hk', bs'', d, hbs'', hr, hd', hperm⟩ := hbs'.scan grants hbase hn hfit'
      refine ⟨max k k' + w.length, r, fun fuel hfuel => ?_, bs'', hbs'',
        Or.inr ⟨d, hr, hd', hlives ▸ hperm⟩⟩
      obtain ⟨i, rfl⟩ := Nat.exists_eq_add_of_le' hfuel
      obtain ⟨j, hj, he⟩ := hpr (i + max k k')
      rw [← Nat.add_assoc, he, mallocLoop_granted hfreep rfl (hk _ (by omega))
        (hbs'.freep_ne hpos hbase)]
      exact hk' _ (by omega)

end Xv6.User
