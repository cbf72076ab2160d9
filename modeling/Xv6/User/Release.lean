import Xv6.User.Program

/-!
# The heap allocator in release mode

User programs are built in release mode, where `usize` arithmetic wraps.  Here `malloc`,
`morecore` and `free` are written with `% 2^64`, and every grant of `sbrk` is recorded with the
units that `morecore` writes into the new header.

* `insert_eq`, `take_eq` — on a heap in order nothing wraps, and the code does what it does on
  numbers without a bound.
* `loop_short` — a grant for less than the header says stays on record.
* `malloc_honest_iff` — when a call keeps its promise.
-/

namespace Xv6.User.Release

open Lib Function List

/-- `p.add(n)` on headers. -/
def addUnits (p n : ℕ) : ℕ := (p + HEADER_SIZE * n) % 2 ^ 64

/-- Coalesce with the upper neighbour. -/
def joinUpper (bp p : ℕ) (h : Heap) : Heap :=
  if addUnits bp (h.size bp) = h.next p then
    { h with
      size := update h.size bp ((h.size bp + h.size (h.next p)) % 2 ^ 64)
      next := update h.next bp (h.next (h.next p)) }
  else { h with next := update h.next bp (h.next p) }

/-- Coalesce with the lower neighbour. -/
def joinLower (bp p : ℕ) (h : Heap) : Heap :=
  if addUnits p (h.size p) = bp then
    { h with
      size := update h.size p ((h.size p + h.size bp) % 2 ^ 64)
      next := update h.next p (h.next bp) }
  else { h with next := update h.next p bp }

/-- The rest of `free`. -/
def insert (bp p : ℕ) (h : Heap) : Heap := { joinLower bp p (joinUpper bp p h) with freep := p }

/-- `free`. -/
def free (fuel ptr : ℕ) (h : Heap) : Option Heap :=
  if ptr = 0 then some h
  else (h.search ((ptr + 2 ^ 64 - HEADER_SIZE) % 2 ^ 64) fuel h.freep).map fun p =>
    insert ((ptr + 2 ^ 64 - HEADER_SIZE) % 2 ^ 64) p h

/-- A grant of `sbrk` to `morecore`: the bytes asked for, and the units in the header. -/
structure Grant where
  asked : ℤ
  units : ℕ

/-- What a call returns, and the grants so far. -/
structure Outcome where
  ptr : ℕ
  heap : Heap
  grown : List Grant

/-- The units that `morecore` asks for. -/
def coreUnits (nu : ℕ) : ℕ := if nu < 4096 then 4096 else nu

/-- The argument of `sbrk`: `(units * HEADER_SIZE) as i32`. -/
def coreBytes (nu : ℕ) : ℤ := Lib.asI32 (coreUnits nu * HEADER_SIZE % 2 ^ 64)

/-- `morecore`. -/
def morecore (grants : ℕ → Bool) (fuel nu : ℕ) (h : Heap) (log : List Grant) : Option Outcome :=
  match h.sbrk grants (coreBytes nu) with
  | (none, h) => some ⟨0, h, log⟩
  | (some p, h) =>
    (free fuel (addUnits p 1) { h with size := update h.size p (coreUnits nu) }).map fun h =>
      ⟨h.freep, h, log ++ [⟨coreBytes nu, coreUnits nu⟩]⟩

/-- `malloc` has found a fit: the whole block, or its tail. -/
def take (nunits prevp p : ℕ) (h : Heap) : ℕ × Heap :=
  if h.size p = nunits then
    (addUnits p 1, { h with next := update h.next prevp (h.next p), freep := prevp })
  else
    let rest := h.size p - nunits
    let q := addUnits p rest
    (addUnits q 1, { h with size := update (update h.size p rest) q nunits, freep := prevp })

/-- The loop of `malloc`. -/
def mallocLoop (grants : ℕ → Bool) (nunits : ℕ) : ℕ → ℕ → ℕ → Heap → List Grant → Option Outcome
  | 0, _, _, _, _ => none
  | fuel + 1, prevp, p, h, log =>
    if nunits ≤ h.size p then some ⟨(take nunits prevp p h).1, (take nunits prevp p h).2, log⟩
    else if p = h.freep then
      match morecore grants fuel nunits h log with
      | none => none
      | some o =>
        if o.ptr = 0 then some o else mallocLoop grants nunits fuel o.ptr (o.heap.next o.ptr)
          o.heap o.grown
    else mallocLoop grants nunits fuel p (h.next p) h log

/-- The units that `malloc` looks for. -/
def unitsFor (nbytes : ℕ) : ℕ := (nbytes + HEADER_SIZE - 1) % 2 ^ 64 / HEADER_SIZE + 1

/-- `malloc`. -/
def malloc (base : ℕ) (grants : ℕ → Bool) (fuel nbytes : ℕ) (h : Heap) : Option Outcome :=
  let h := h.ensure base
  mallocLoop grants (unitsFor nbytes) fuel h.freep (h.next h.freep) h []

/-- A call keeps its promise: the break has grown by what the new header says, and the pointer is
null or that of a block in the memory from `sbrk` with room for the request. -/
def Honest (lo nbytes : ℕ) (o : Outcome) : Prop :=
  (∀ g ∈ o.grown, g.asked = HEADER_SIZE * g.units) ∧
    (o.ptr = 0 ∨ ∃ c : Block, o.ptr = c.ptr ∧ o.heap.size c.addr = c.units ∧ lo ≤ c.addr ∧
      o.ptr + nbytes ≤ c.stop ∧ c.stop ≤ o.heap.brk)

/-! ## Where nothing wraps -/

variable {base lo : ℕ} {grants : ℕ → Bool} {h : Heap} {bs L R : List Block} {b c : Block}
variable {nunits nbytes prevp p u fuel : ℕ} {log : List Grant}

theorem addUnits_eq (hlt : p + 16 * u < 2 ^ 64) : addUnits p u = User.addUnits p u :=
  Nat.mod_eq_of_lt hlt

/-- What is on the list ends below the break. -/
theorem bounded_of_mem (ho : Ordered base lo h bs) (hbase : base < lo) (hp : p ∈ base :: frees bs) :
    p + 16 * h.size p ≤ h.brk := by
  rcases mem_cons.1 hp with rfl | hp
  · rw [ho.size_base]
    have := ho.tiled.bounds.1
    omega
  · obtain ⟨b, hb, -, rfl⟩ := mem_frees.1 hp
    rw [ho.sized b hb]
    exact (ho.tiled.bounds.2 b hb).2.2

theorem take_eq (hlt : p + 16 * h.size p < 2 ^ 64) (hn : 0 < nunits) (hfit : nunits ≤ h.size p) :
    take nunits prevp p h = h.take nunits prevp p := by
  have hone : addUnits p 1 = User.addUnits p 1 := addUnits_eq (by omega)
  have hrest : addUnits p (h.size p - nunits) = User.addUnits p (h.size p - nunits) :=
    addUnits_eq (by omega)
  have hptr : addUnits (User.addUnits p (h.size p - nunits)) 1 = User.addUnits
    (User.addUnits p (h.size p - nunits)) 1 := by
    refine addUnits_eq ?_
    change p + 16 * (h.size p - nunits) + 16 * 1 < 2 ^ 64
    omega
  unfold take Heap.take
  simp only [hone, hrest, hptr]

theorem insert_eq {bp : ℕ} (hbp : bp + 16 * h.size bp < 2 ^ 64) (hp : p + 16 * h.size p < 2 ^ 64)
    (hne : p ≠ bp) (hup : h.size bp + h.size (h.next p) < 2 ^ 64)
      (hlow : h.size p + (h.size bp + h.size (h.next p)) < 2 ^ 64) :
    insert bp p h = h.insert bp p := by
  have hupper : joinUpper bp p h = h.joinUpper bp p := by
    unfold joinUpper Heap.joinUpper
    rw [addUnits_eq hbp, Nat.mod_eq_of_lt hup]
  have hsize : (h.joinUpper bp p).size p = h.size p := by
    unfold Heap.joinUpper
    split_ifs
    · exact update_of_ne hne ..
    · rfl
  have hnew : (h.joinUpper bp p).size bp ≤ h.size bp + h.size (h.next p) := by
    unfold Heap.joinUpper
    split_ifs
    · simp
    · simp
  unfold insert Heap.insert
  rw [hupper]
  unfold joinLower Heap.joinLower
  rw [hsize, addUnits_eq hp, Nat.mod_eq_of_lt (by omega)]

/-- What is asked for is what the header says, if it fits in an `i32`. -/
theorem coreBytes_eq (hn : nunits * HEADER_SIZE < 2 ^ 31) :
    coreBytes nunits = HEADER_SIZE * coreUnits nunits := by
  have hle : coreUnits nunits * 16 < 2 ^ 31 := by
    change nunits * 16 < _ at hn
    unfold coreUnits
    split_ifs <;> omega
  unfold coreBytes
  rw [Nat.mod_eq_of_lt (by change coreUnits nunits * 16 < 2 ^ 64; omega), asI32_of_lt hle]
  rw [Nat.mul_comm, Nat.cast_mul]

theorem coreBytes_ne (hn : 2 ^ 31 ≤ nunits * HEADER_SIZE) :
    coreBytes nunits ≠ HEADER_SIZE * coreUnits nunits := by
  have hle : 2 ^ 31 ≤ coreUnits nunits * 16 := by
    change _ ≤ nunits * 16 at hn
    unfold coreUnits
    split_ifs <;> omega
  have hlt : coreBytes nunits < 2 ^ 31 := by
    have hmod := Int.bmod_lt (x := ((coreUnits nunits * HEADER_SIZE % 2 ^ 64 : ℕ) : ℤ))
      (m := 2 ^ 32) (by decide)
    unfold coreBytes Lib.asI32
    omega
  have hsize : ((HEADER_SIZE : ℕ) : ℤ) = 16 := rfl
  rw [hsize]
  omega

/-- The grant `morecore` puts on record is honest for these requests and no others. -/
theorem honest_grant_iff :
    (∀ g ∈ [(⟨coreBytes nunits, coreUnits nunits⟩ : Grant)], g.asked = HEADER_SIZE * g.units) ↔
    nunits * HEADER_SIZE < 2 ^ 31 := by
  simp only [mem_singleton, forall_eq]
  constructor
  · intro h
    by_contra hmax
    exact coreBytes_ne (not_lt.1 hmax) h
  · intro hmax
    exact coreBytes_eq hmax

/-- `morecore` for a request that fits in an `i32`. -/
theorem morecore_eq (log : List Grant) (hbase : base < lo) (ho : Ordered base lo h bs)
    (hbrk : h.brk ≤ 2 ^ 47) (hn : nunits * HEADER_SIZE < 2 ^ 31) (hg : grants h.calls = true) :
    ∃ k h', (∀ fuel, k ≤ fuel → morecore grants fuel nunits h log =
        some ⟨h'.freep, h', log ++ [⟨coreBytes nunits, coreUnits nunits⟩]⟩) ∧ h'.brk ≤ 2 ^ 48 ∧
      ∃ bs', Ordered base lo h' bs' ∧ ∃ c ∈ bs', c.free = true ∧ nunits ≤ c.units := by
  have hbytes := coreBytes_eq hn
  obtain ⟨units, hunits⟩ : ∃ units, coreUnits nunits = units := ⟨_, rfl⟩
  rw [hunits, show ((HEADER_SIZE : ℕ) : ℤ) = 16 from rfl] at hbytes
  have hle : nunits ≤ units ∧ 0 < units ∧ units * 16 < 2 ^ 31 := by
    change nunits * 16 < _ at hn
    unfold coreUnits at hunits
    split_ifs at hunits <;> omega
  have hext := ho.extend hbase hle.2.1
  obtain ⟨k, hk⟩ := hext.search (R := []) hbase rfl
  obtain ⟨bs', hbs', -, c, hc, hcf, hcu⟩ := hext.insert (R := []) hbase rfl
  have hbounds := ho.tiled.bounds.1
  have hbefore := bounded_of_mem ho hbase (before_mem base bs)
  have hlt : before base bs < h.brk := by
    rcases mem_cons.1 (before_mem base bs) with he | hmem
    · omega
    · obtain ⟨d, hd, -, he⟩ := mem_frees.1 hmem
      have := ho.tiled.bounds.2 d hd
      omega
  refine ⟨k, _, fun fuel hfuel => ?_, ?_, bs', hbs', c, hc, hcf, hle.1.trans hcu⟩
  · have hgrow : ((h.brk : ℤ) + 16 * (units : ℤ)).toNat = User.addUnits h.brk units := by
      change _ = h.brk + 16 * units
      omega
    have hptr : addUnits h.brk 1 = h.brk + 16 :=
      Nat.mod_eq_of_lt (by change h.brk + 16 < 2 ^ 64; omega)
    have hback : (h.brk + 16 + 2 ^ 64 - HEADER_SIZE) % 2 ^ 64 = h.brk := by
      change (h.brk + 16 + 2 ^ 64 - 16) % 2 ^ 64 = h.brk
      omega
    have hnext : h.next (before base bs) = base := ho.ring.2
    unfold morecore
    simp only [hunits, hbytes, Heap.sbrk, hg, if_true, hgrow, hptr]
    unfold free
    rw [if_neg (by omega), hback, hk fuel hfuel, Option.map_some, Option.map_some, insert_eq]
    · change h.brk + 16 * update h.size h.brk units h.brk < 2 ^ 64
      rw [update_self]
      omega
    · change before base bs + 16 * update h.size h.brk units (before base bs) < 2 ^ 64
      rw [update_of_ne hlt.ne]
      omega
    · exact hlt.ne
    · change update h.size h.brk units h.brk + update h.size h.brk units
        (h.next (before base bs)) < 2 ^ 64
      rw [hnext, update_self, update_of_ne (by omega), ho.size_base]
      omega
    · change update h.size h.brk units (before base bs) +
        (update h.size h.brk units h.brk + update h.size h.brk units (h.next (before base bs))) <
          2 ^ 64
      rw [hnext, update_self, update_of_ne (by omega), update_of_ne (by omega), ho.size_base]
      omega
  · have hsame : ∀ (h : Heap) (bp p : ℕ), (h.insert bp p).brk = h.brk := by
      intro h bp p
      unfold Heap.insert Heap.joinLower Heap.joinUpper
      split_ifs <;> rfl
    rw [hsame]
    change h.brk + 16 * units ≤ 2 ^ 48
    omega

/-! ## The loop -/

theorem grown_mono {o : Outcome} (hrun : mallocLoop grants nunits fuel prevp p h log = some o) :
    log <+: o.grown := by
  induction fuel generalizing prevp p h log with
  | zero => cases hrun
  | succ fuel ih =>
    unfold mallocLoop at hrun
    split_ifs at hrun
    · cases hrun
      exact prefix_rfl
    · cases hmore : morecore grants fuel nunits h log with
      | none =>
        rw [hmore] at hrun
        cases hrun
      | some o' =>
        have hlog : log <+: o'.grown := by
          unfold morecore at hmore
          split at hmore
          · cases hmore
            exact prefix_rfl
          · obtain ⟨h', -, rfl⟩ := Option.map_eq_some_iff.1 hmore
            exact prefix_append ..
        rw [hmore] at hrun
        simp only at hrun
        split_ifs at hrun
        · cases hrun
          exact hlog
        · exact hlog.trans (ih hrun)
    · exact ih hrun

theorem mallocLoop_next (hfit : h.size p < nunits) (hp : p ≠ h.freep) :
    mallocLoop grants nunits (fuel + 1) prevp p h log = mallocLoop grants nunits fuel p (h.next p)
      h log := by
  rw [mallocLoop, if_neg hfit.not_ge, if_neg hp]

/-- With a fit on the list, the loop returns a block of the units it looks for. -/
theorem loop_fit (grants : ℕ → Bool) (log : List Grant) (hbase : base < lo)
    (ho : Ordered base lo h bs)
    (hbrk : h.brk ≤ 2 ^ 48) (hn : 0 < nunits) (hfit : ∃ u ∈ base :: frees bs, nunits ≤ h.size u) :
    ∃ k ptr h', (∀ fuel, k ≤ fuel → mallocLoop grants nunits fuel h.freep (h.next h.freep) h log =
      some ⟨ptr, h', log⟩) ∧
      ∃ bs' c, Ordered base lo h' bs' ∧ ptr = c.ptr ∧ c.units = nunits ∧ c ∈ bs' := by
  obtain ⟨w, hlinks, hlast, hd, hmem⟩ := ho.ring.around (ho.nodup hbase) ho.rover
  obtain ⟨v, hv, hvfit⟩ := hfit
  have hvw := (hmem v).2 hv
  obtain ⟨pr, hpr, u, hu, hnext, hstop, hgo⟩ :=
    walk_stops (fun fuel prevp p => mallocLoop grants nunits fuel prevp p h log)
    (fun _ _ _ hsize hp => mallocLoop_next hsize hp) hlinks hlast hd (ne_nil_of_mem hvw)
  have hufit : nunits ≤ h.size u := hstop.resolve_right fun hno => absurd hvfit (hno.2 v hvw).not_ge
  have hprmem : pr ∈ base :: frees bs := by
    rcases mem_cons.1 hpr with rfl | hpr
    · exact ho.rover
    · exact (hmem pr).1 hpr
  have hbound := bounded_of_mem ho hbase ((hmem u).1 hu)
  obtain ⟨bs', c, hbs', hptr, hcu, hperm⟩ := ho.take hbase hn hprmem ((hmem u).1 hu) hnext hufit
  refine ⟨w.length, _, _, fun fuel hfuel => ?_, bs', c, hbs', hptr, hcu, ?_⟩
  · obtain ⟨k, rfl⟩ := Nat.exists_eq_add_of_le' hfuel
    obtain ⟨j, -, he⟩ := hgo k
    refine he.trans ?_
    rw [mallocLoop, if_pos hufit, take_eq (by omega) hn hufit]
  · exact mem_of_mem_filter (hperm.mem_iff.2 mem_cons_self)

/-- Without one, it comes to `morecore`. -/
theorem loop_none (grants : ℕ → Bool) (log : List Grant) (hbase : base < lo)
    (ho : Ordered base lo h bs) (hnone : ∀ u ∈ base :: frees bs, h.size u < nunits) :
    ∃ k pr, ∀ fuel, ∃ j, fuel ≤ j ∧ mallocLoop grants nunits (fuel + k) h.freep
      (h.next h.freep) h log =
      mallocLoop grants nunits (j + 1) pr h.freep h log := by
  obtain ⟨w, hlinks, hlast, hd, hmem⟩ := ho.ring.around (ho.nodup hbase) ho.rover
  have hw : w ≠ [] := ne_nil_of_mem ((hmem base).2 mem_cons_self)
  obtain ⟨pr, -, u, hu, -, hstop, hgo⟩ :=
    walk_stops (fun fuel prevp p => mallocLoop grants nunits fuel prevp p h log)
    (fun _ _ _ hsize hp => mallocLoop_next hsize hp) hlinks hlast hd hw
  obtain ⟨rfl, -⟩ := hstop.resolve_left (hnone u ((hmem u).1 hu)).not_ge
  exact ⟨w.length, pr, hgo⟩

theorem unitsFor_eq (hn : nbytes + 15 < 2 ^ 64) : unitsFor nbytes = Heap.unitsFor nbytes := by
  unfold unitsFor Heap.unitsFor
  rw [Nat.mod_eq_of_lt]
  change nbytes + 16 - 1 < 2 ^ 64
  omega

/-- A block of the units looked for, with honest grants, is what was promised unless the request
wraps: then it is a header and nothing else. -/
theorem honest_block_iff {h' : Heap} {bs' : List Block} (ho : Ordered base lo h' bs') (hc : c ∈ bs')
    (hcu : c.units = unitsFor nbytes) (hn : nbytes < 2 ^ 64) (hlog : ∀ g ∈ log,
      g.asked = HEADER_SIZE * g.units) :
    Honest lo nbytes ⟨c.ptr, h', log⟩ ↔ nbytes + 15 < 2 ^ 64 := by
  have hbounds := ho.tiled.bounds.2 c hc
  constructor
  · rintro ⟨-, hnull | ⟨d, hptr, hsize, -, hroom, -⟩⟩
    · exact absurd hnull (Nat.succ_ne_zero (c.addr + 15))
    · by_contra hwrap
      have haddr : c.addr = d.addr := Nat.add_right_cancel hptr
      have hone : c.units = 1 := by
        rw [hcu]
        change (nbytes + 16 - 1) % 2 ^ 64 / 16 + 1 = 1
        omega
      have hunits : d.units = 1 := by
        rw [← hone, ← ho.sized c hc, haddr]
        exact hsize.symm
      change c.addr + 16 * 1 + nbytes ≤ d.addr + 16 * d.units at hroom
      omega
  · intro hlt
    have hroom := unitsFor_room nbytes
    rw [← unitsFor_eq hlt, ← hcu] at hroom
    refine ⟨hlog, Or.inr ⟨c, rfl, ho.sized c hc, hbounds.1, ?_, hbounds.2.2⟩⟩
    change nbytes + 16 ≤ 16 * c.units at hroom
    change c.addr + 16 * 1 + nbytes ≤ c.addr + 16 * c.units
    omega

/-- A call that returns with enough fuel returns one thing. -/
theorem returns_iff {f : ℕ → Option Outcome} {k : ℕ} {o : Outcome} {P : Outcome → Prop}
    (hk : ∀ fuel, k ≤ fuel → f fuel = some o) :
      (∃ k o, (∀ fuel, k ≤ fuel → f fuel = some o) ∧ P o) ↔ P o := by
  constructor
  · rintro ⟨k', o', hk', ho'⟩
    have he := (hk' _ (le_max_right k k')).symm.trans (hk _ (le_max_left k k'))
    exact Option.some.inj he ▸ ho'
  · exact fun ho => ⟨k, o, hk, ho⟩

theorem calls_ensure : (h.ensure base).calls = h.calls := by
  unfold Heap.ensure
  split_ifs <;> rfl

theorem brk_ensure : (h.ensure base).brk = h.brk := by
  unfold Heap.ensure
  split_ifs <;> rfl

/-- The loop at `FREEP` with no fit, when `sbrk` refuses. -/
theorem loop_refused (hfit : h.size h.freep < nunits) (hg : grants h.calls = false) :
    mallocLoop grants nunits (fuel + 1) prevp h.freep h log =
      some ⟨0, { h with calls := h.calls + 1 }, log⟩ := by
  rw [mallocLoop, if_neg hfit.not_ge, if_pos rfl, morecore, Heap.sbrk, hg]
  rfl

/-- A grant for a request beyond an `i32` is on record, whatever comes after it. -/
theorem loop_short {o : Outcome} (hfit : h.size h.freep < nunits) (hg : grants h.calls = true)
    (hrun : mallocLoop grants nunits (fuel + 1) prevp h.freep h log = some o) :
    (⟨coreBytes nunits, coreUnits nunits⟩ : Grant) ∈ o.grown := by
  rw [mallocLoop, if_neg hfit.not_ge, if_pos rfl] at hrun
  cases hmore : morecore grants fuel nunits h log with
  | none =>
    rw [hmore] at hrun
    cases hrun
  | some o' =>
    have hin : (⟨coreBytes nunits, coreUnits nunits⟩ : Grant) ∈ o'.grown := by
      simp only [morecore, Heap.sbrk, hg, if_true] at hmore
      obtain ⟨h', -, rfl⟩ := Option.map_eq_some_iff.1 hmore
      simp
    rw [hmore] at hrun
    simp only at hrun
    split_ifs at hrun
    · cases hrun
      exact hin
    · exact (grown_mono hrun).subset hin

/-- With no fit and a grant of what the header says, the loop returns a block. -/
theorem loop_granted (log : List Grant) (hpos : 0 < base) (hbase : base < lo)
    (ho : Ordered base lo h bs) (hbrk : h.brk ≤ 2 ^ 47)
    (hn : 0 < nunits) (hmax : nunits * HEADER_SIZE < 2 ^ 31) (hg : grants h.calls = true)
    (hnone : ∀ u ∈ base :: frees bs, h.size u < nunits) :
    ∃ k ptr h' bs' c, (∀ fuel, k ≤ fuel →
      mallocLoop grants nunits fuel h.freep (h.next h.freep) h log =
        some ⟨ptr, h', log ++ [⟨coreBytes nunits, coreUnits nunits⟩]⟩) ∧
      Ordered base lo h' bs' ∧ ptr = c.ptr ∧ c.units = nunits ∧ c ∈ bs' := by
  obtain ⟨k, pr, hk⟩ := loop_none grants log hbase ho hnone
  obtain ⟨k₁, h₁, hmore, hbrk₁, bs₁, ho₁, d, hd, hdf, hdu⟩ := morecore_eq log hbase ho hbrk hmax hg
  have hfit : ∃ u ∈ base :: frees bs₁, nunits ≤ h₁.size u :=
    ⟨d.addr, mem_cons_of_mem _ (mem_frees.2 ⟨d, hd, hdf, rfl⟩), (ho₁.sized d hd).symm ▸ hdu⟩
  obtain ⟨k₂, ptr, h', hk₂, bs', c, ho', hc⟩ :=
    loop_fit grants (log ++ [⟨coreBytes nunits, coreUnits nunits⟩]) hbase ho₁ hbrk₁ hn hfit
  refine ⟨max k₁ k₂ + k, ptr, h', bs', c, fun fuel hfuel => ?_, ho', hc⟩
  obtain ⟨i, rfl⟩ := Nat.exists_eq_add_of_le' hfuel
  obtain ⟨j, hj, he⟩ := hk (i + max k₁ k₂)
  rw [← Nat.add_assoc, he, mallocLoop, if_neg (hnone _ ho.rover).not_ge, if_pos rfl,
    hmore j (by omega)]
  simp only [ho₁.freep_ne hpos hbase, if_false]
  exact hk₂ j (by omega)

/-! ## When malloc keeps its promise -/

/-- **`malloc` in release mode.**  On every heap in order and for every `usize`, a call returns
and keeps its promise exactly if nothing fits and `sbrk` refuses, or the request does not wrap
when it is rounded up and either fits in a free block or is below `2^31` bytes in whole units. -/
theorem malloc_honest_iff (hpos : 0 < base) (hbase : base < lo)
    (ho : Ordered base lo (h.ensure base) bs) (hbrk : h.brk ≤ 2 ^ 47) (hn : nbytes < 2 ^ 64) :
    (∃ k o, (∀ fuel, k ≤ fuel → malloc base grants fuel nbytes h = some o) ∧ Honest lo nbytes o) ↔
      ((∀ u ∈ base :: frees bs, (h.ensure base).size u < unitsFor nbytes) ∧
        grants h.calls = false) ∨
        (nbytes + 15 < 2 ^ 64 ∧
          ((∃ u ∈ base :: frees bs, unitsFor nbytes ≤ (h.ensure base).size u) ∨
          unitsFor nbytes * HEADER_SIZE < 2 ^ 31)) := by
  have hunits : 0 < unitsFor nbytes := Nat.succ_pos _
  have hbrk' : (h.ensure base).brk ≤ 2 ^ 47 := brk_ensure.trans_le hbrk
  by_cases hfit : ∃ u ∈ base :: frees bs, unitsFor nbytes ≤ (h.ensure base).size u
  · obtain ⟨k, ptr, h', hk, bs', c, ho', rfl, hcu, hc⟩ :=
      loop_fit grants [] hbase ho (hbrk'.trans (by decide)) hunits hfit
    refine (returns_iff hk).trans ((honest_block_iff ho' hc hcu hn (by simp)).trans ?_)
    constructor
    · exact fun hlt => Or.inr ⟨hlt, Or.inl hfit⟩
    · rintro (⟨hno, -⟩ | ⟨hlt, -⟩)
      · obtain ⟨u, hu, hle⟩ := hfit
        exact absurd hle (hno u hu).not_ge
      · exact hlt
  · have hnone : ∀ u ∈ base :: frees bs, (h.ensure base).size u < unitsFor nbytes := fun u hu =>
      not_le.1 fun hle => hfit ⟨u, hu, hle⟩
    obtain ⟨k, pr, hk⟩ := loop_none grants [] hbase ho hnone
    cases hg : grants h.calls with
    | false =>
      refine iff_of_true ?_ (Or.inl ⟨hnone, rfl⟩)
      refine ⟨k, ⟨0, { h.ensure base with calls := (h.ensure base).calls + 1 }, []⟩,
        fun fuel hfuel => ?_, by simp, Or.inl rfl⟩
      obtain ⟨i, rfl⟩ := Nat.exists_eq_add_of_le' hfuel
      obtain ⟨j, -, he⟩ := hk i
      exact he.trans (loop_refused (hnone _ ho.rover) (calls_ensure.symm ▸ hg))
    | true =>
      have hg' : grants (h.ensure base).calls = true := calls_ensure.symm ▸ hg
      by_cases hmax : unitsFor nbytes * HEADER_SIZE < 2 ^ 31
      · obtain ⟨k', ptr, h', bs', c, hk', ho', rfl, hcu, hc⟩ :=
          loop_granted [] hpos hbase ho hbrk' hunits hmax hg' hnone
        refine (returns_iff hk').trans
          ((honest_block_iff ho' hc hcu hn (honest_grant_iff.2 hmax)).trans ?_)
        constructor
        · exact fun hlt => Or.inr ⟨hlt, Or.inr hmax⟩
        · rintro (⟨-, hno⟩ | ⟨hlt, -⟩)
          · cases hno
          · exact hlt
      · refine iff_of_false ?_ ?_
        swap
        · rintro (⟨-, hno⟩ | ⟨-, hyes | hyes⟩)
          · cases hno
          · exact hfit hyes
          · exact hmax hyes
        rintro ⟨k', o, hrun, hgrown, -⟩
        obtain ⟨j, -, he⟩ := hk k'
        have hin := loop_short (hnone _ ho.rover) hg'
          (he.symm.trans (hrun _ (Nat.le_add_right k' k)))
        refine hmax (honest_grant_iff.1 fun g hg => hgrown g ?_)
        rw [mem_singleton] at hg
        rw [hg]
        exact hin

/-- A first call for a hundred bytes. -/
theorem malloc_honest_hundred : ∃ k o,
    (∀ fuel, k ≤ fuel → malloc 16 (fun _ => true) fuel 100 (bootClient 32).heap = some o) ∧
      Honest 32 100 o :=
  (malloc_honest_iff (by decide) (by decide) (bootClient_tidy 16 32).ordered (by decide)
    (by decide)).2
    (Or.inr ⟨by decide, Or.inr (by decide)⟩)

/-- A first call for `2^32 - 16` bytes: `sbrk` is asked for `0` bytes, and the header says `2^28`
units. -/
theorem malloc_asks_for_nothing : ¬∃ k o,
    (∀ fuel, k ≤ fuel → malloc 16 (fun _ => true) fuel 4294967280 (bootClient 32).heap = some o) ∧
      Honest 32 4294967280 o := by
  rintro ⟨k, o, hrun, hgrown, -⟩
  have hlog : (malloc 16 (fun _ => true) (k + 3) 4294967280 (bootClient 32).heap).map
    Outcome.grown =
      some [⟨0, 268435456⟩] := rfl
  rw [hrun _ (Nat.le_add_right k 3), Option.map_some, Option.some.injEq] at hlog
  have hbad := hgrown ⟨0, 268435456⟩ (by rw [hlog]; exact mem_singleton_self _)
  exact absurd hbad (by decide)

end Xv6.User.Release
