import Xv6.Lib.Ring
import Xv6.User.Malloc

/-!
# The heap is in order

The memory obtained from `sbrk` is tiled by blocks, free ones and live ones, and the list of
the allocator goes through the free ones in address order.

* `Tiled` — blocks that follow each other without a gap.
* `Ordered` — the allocator's memory is that of a tiling.
-/

namespace Xv6.User

open Lib Function
open List hiding tail_cons

/-! ## Tilings -/

/-- A block of memory. -/
structure Block where
  /-- Where it starts. -/
  addr : ℕ
  /-- Its size in units, with the header. -/
  units : ℕ
  /-- It is on the list. -/
  free : Bool

namespace Block

/-- Where a block ends. -/
def stop (b : Block) : ℕ := addUnits b.addr b.units

end Block

/-- Blocks that follow each other from `lo` to `hi`. -/
def Tiled : ℕ → List Block → ℕ → Prop
  | lo, [], hi => lo = hi
  | lo, b :: bs, hi => b.addr = lo ∧ 0 < b.units ∧ Tiled b.stop bs hi

/-- The addresses of the free blocks. -/
def frees (bs : List Block) : List ℕ := (bs.filter fun b => b.free).map Block.addr

/-- The live blocks. -/
def lives (bs : List Block) : List Block := bs.filter fun b => !b.free

/-- No two free blocks follow each other. -/
def Apart (bs : List Block) : Prop := bs.IsChain fun a b => ¬ (a.free = true ∧ b.free = true)

variable {bs L R : List Block} {b c : Block} {lo hi mid : ℕ}

@[simp] theorem frees_append : frees (L ++ R) = frees L ++ frees R := by
  rw [frees, filter_append, map_append]
  rfl

@[simp] theorem lives_append : lives (L ++ R) = lives L ++ lives R := filter_append ..

theorem frees_cons_true (h : b.free = true) : frees (b :: bs) = b.addr :: frees bs := by
  rw [frees, filter_cons_of_pos h]
  rfl

theorem frees_cons_false (h : b.free = false) : frees (b :: bs) = frees bs := by
  rw [frees, filter_cons_of_neg (by rw [h]; decide)]
  rfl

theorem lives_cons_true (h : b.free = true) : lives (b :: bs) = lives bs :=
  filter_cons_of_neg (by simp [h])

theorem lives_cons_false (h : b.free = false) : lives (b :: bs) = b :: lives bs :=
  filter_cons_of_pos (by simp [h])

theorem mem_frees {a : ℕ} : a ∈ frees bs ↔ ∃ b ∈ bs, b.free = true ∧ b.addr = a := by
  simp only [frees, mem_map, mem_filter, and_assoc]

theorem tiled_append : Tiled lo (L ++ R) hi ↔ ∃ mid, Tiled lo L mid ∧ Tiled mid R hi := by
  induction L generalizing lo with
  | nil => exact ⟨fun h => ⟨lo, rfl, h⟩, fun ⟨mid, he, h⟩ => he ▸ h⟩
  | cons b L ih =>
    rw [cons_append, Tiled, ih]
    exact ⟨fun ⟨ha, hu, mid, hL, hR⟩ => ⟨mid, ⟨ha, hu, hL⟩, hR⟩,
      fun ⟨mid, ⟨ha, hu, hL⟩, hR⟩ => ⟨ha, hu, mid, hL, hR⟩⟩

theorem Block.lt_stop (h : 0 < b.units) : b.addr < b.stop := by
  rw [Block.stop, addUnits]
  change b.addr < b.addr + 16 * b.units
  omega

theorem Tiled.bounds (h : Tiled lo bs hi) :
    lo ≤ hi ∧ ∀ b ∈ bs, lo ≤ b.addr ∧ b.addr < b.stop ∧ b.stop ≤ hi := by
  induction bs generalizing lo with
  | nil => exact ⟨h.le, fun b hb => by cases hb⟩
  | cons b bs ih =>
    obtain ⟨rfl, hu, hrest⟩ := h
    obtain ⟨hle, hall⟩ := ih hrest
    have hlt := Block.lt_stop hu
    refine ⟨by omega, fun c hc => ?_⟩
    rcases mem_cons.1 hc with rfl | hc
    · exact ⟨le_rfl, hlt, hle⟩
    · have := hall c hc
      exact ⟨by omega, this.2⟩

/-- Each block ends before the later ones start. -/
theorem Tiled.pairwise (h : Tiled lo bs hi) : bs.Pairwise fun a b => a.stop ≤ b.addr := by
  induction bs generalizing lo with
  | nil => exact List.Pairwise.nil
  | cons b bs ih => exact pairwise_cons.2 ⟨fun c hc => (h.2.2.bounds.2 c hc).1, ih h.2.2⟩

/-- Two blocks are the same, or one ends before the other starts. -/
theorem Tiled.disjoint (h : Tiled lo bs hi) (hb : b ∈ bs) (hc : c ∈ bs) :
    b = c ∨ b.stop ≤ c.addr ∨ c.stop ≤ b.addr := by
  induction bs generalizing lo with
  | nil => cases hb
  | cons d bs ih =>
    have hlater := (pairwise_cons.1 h.pairwise).1
    rcases mem_cons.1 hb with hbd | hb' <;> rcases mem_cons.1 hc with hcd | hc'
    · exact .inl (hbd.trans hcd.symm)
    · exact .inr (Or.inl (hbd ▸ hlater c hc'))
    · exact .inr (Or.inr (hcd ▸ hlater b hb'))
    · exact ih h.2.2 hb' hc'

theorem Tiled.around (h : Tiled lo (L ++ b :: R) hi) :
    lo ≤ b.addr ∧ b.addr < b.stop ∧ (∀ c ∈ L, c.addr < b.addr) ∧ ∀ c ∈ R, b.stop ≤ c.addr := by
  obtain ⟨mid, hL, rfl, hpos, hR⟩ := tiled_append.1 h
  refine ⟨hL.bounds.1, Block.lt_stop hpos, fun c hc => ?_, fun c hc => (hR.bounds.2 c hc).1⟩
  have := hL.bounds.2 c hc
  omega

theorem Tiled.covers (h : Tiled lo bs hi) (a : ℕ) :
    lo ≤ a ∧ a < hi ↔ ∃ b ∈ bs, b.addr ≤ a ∧ a < b.stop := by
  induction bs generalizing lo with
  | nil =>
    rw [show lo = hi from h]
    exact ⟨fun hlt => absurd hlt.1 hlt.2.not_ge, fun ⟨b, hb, _⟩ => by cases hb⟩
  | cons b bs ih =>
    obtain ⟨rfl, hu, hrest⟩ := h
    have hlt := Block.lt_stop hu
    have hle := hrest.bounds.1
    rw [exists_mem_cons_iff, ← ih hrest]
    omega

/-- Blocks of a tiling with the same address are the same. -/
theorem Tiled.addr_inj (h : Tiled lo bs hi) (hb : b ∈ bs) (hc : c ∈ bs) (he : b.addr = c.addr) :
    b = c := by
  have hbs := (h.bounds.2 b hb).2.1
  have hcs := (h.bounds.2 c hc).2.1
  rcases h.disjoint hb hc with heq | hle | hle
  · exact heq
  · omega
  · omega

/-- The free addresses rise from the start. -/
theorem Tiled.sorted_frees (h : Tiled lo bs hi) {base : ℕ} (hbase : base < lo) :
    (base :: frees bs).Pairwise (· < ·) := by
  refine pairwise_cons.2 ⟨fun a ha => ?_, ?_⟩
  · obtain ⟨b, hb, -, rfl⟩ := mem_frees.1 ha
    have := (h.bounds.2 b hb).1
    omega
  · refine pairwise_map.2 (List.Pairwise.filter _ ?_)
    refine h.pairwise.imp_of_mem fun {a b} ha _ hab => ?_
    have := (h.bounds.2 a ha).2.1
    omega

/-! ## The allocator's memory -/

/-- The allocator's memory is that of a tiling: sizes are as in the tiling, and the list
goes from `BASE` through the free blocks and back. -/
structure Ordered (base lo : ℕ) (h : Heap) (bs : List Block) : Prop where
  /-- The blocks tile what `sbrk` has given. -/
  tiled : Tiled lo bs h.brk
  /-- Free blocks are coalesced. -/
  apart : Apart bs
  /-- Headers hold the sizes. -/
  sized : ∀ b ∈ bs, h.size b.addr = b.units
  /-- `BASE` is empty. -/
  size_base : h.size base = 0
  /-- The list. -/
  ring : Ring h.next base (frees bs)
  /-- `FREEP` is on it. -/
  rover : h.freep ∈ base :: frees bs

section Insert

variable {base : ℕ} {h h' : Heap} {p : ℕ}

/-- The free block before a place, or `BASE`. -/
def before (base : ℕ) (L : List Block) : ℕ := (frees L).getLastD base

theorem before_mem (base : ℕ) (L : List Block) : before base L ∈ base :: frees L :=
  getLastD_mem_cons

theorem before_mem_append (base : ℕ) (L R : List Block) :
    before base L ∈ base :: frees (L ++ R) := by
  rw [frees_append]
  exact mem_cons.2 ((mem_cons.1 (before_mem base L)).imp_right (mem_append_left _))

/-- The memory around a block that is being freed: `L` is in order, `R` follows the block
with its free part hanging on it, and does not start with a free block. -/
structure Opened (base lo : ℕ) (h : Heap) (L : List Block) (bp u : ℕ) (R : List Block) : Prop where
  left : Tiled lo L bp
  right : Tiled (addUnits bp u) R h.brk
  pos : 0 < u
  apart_left : Apart L
  apart_right : Apart R
  head : ∀ r ∈ R.head?, r.free = false
  sized_left : ∀ b ∈ L, h.size b.addr = b.units
  sized_right : ∀ b ∈ R, h.size b.addr = b.units
  size : h.size bp = u
  size_base : h.size base = 0
  links : Links h.next base (frees L)
  tail : Tail h.next bp (frees R) base

theorem addUnits_add (a m n : ℕ) : addUnits a (m + n) = addUnits (addUnits a m) n := by
  change a + 16 * (m + n) = a + 16 * m + 16 * n
  omega

/-- Coalescing with the upper neighbour opens the memory around the block. -/
theorem Ordered.joinUpper (hbase : base < lo) (ho : Ordered base lo h (L ++ b :: R))
    (hb : b.free = false) :
    ∃ u R', Opened base lo (h.joinUpper b.addr (before base L)) L b.addr u R' ∧ lives R' = lives R ∧
      b.units ≤ u := by
  obtain ⟨mid, hL, hmid, hpos, hR⟩ := tiled_append.1 ho.tiled
  subst hmid
  have hring := ho.ring
  rw [frees_append, frees_cons_false hb] at hring
  obtain ⟨hlinks, htail⟩ := tail_append.1 hring
  change Tail h.next (before base L) (frees R) base at htail
  obtain ⟨hapL, hapR, -⟩ := isChain_append.1 ho.apart
  have hsize : h.size b.addr = b.units := ho.sized b (by simp)
  obtain ⟨hlo, hstop, hLlt, hRle⟩ := ho.tiled.around
  -- nothing else starts where the block starts
  have hLne : ∀ c ∈ L, c.addr ≠ b.addr := fun c hc => (hLlt c hc).ne
  have hRne : ∀ c ∈ R, c.addr ≠ b.addr := fun c hc => (hstop.trans_le (hRle c hc)).ne'
  have hfree : ∀ a ∈ base :: frees L, a ≠ b.addr := by
    intro a ha
    rcases mem_cons.1 ha with rfl | ha
    · omega
    · obtain ⟨c, hc, -, rfl⟩ := mem_frees.1 ha
      exact hLne c hc
  have hnodup : (base :: frees L).Nodup := (hL.sorted_frees hbase).imp fun hlt => hlt.ne
  have hlinks' : ∀ v, Links (update h.next b.addr v) base (frees L) := fun v =>
    hlinks.congr (fun a ha _ => update_of_ne (hfree a ha) ..) hnodup
  have hsized : ∀ c ∈ L ++ R, h.size c.addr = c.units := fun c hc =>
    ho.sized c (by simp only [mem_append, mem_cons] at hc ⊢; tauto)
  by_cases hup : ∃ r R', R = r :: R' ∧ r.free = true
  · -- the block above is free
    obtain ⟨r, R', rfl, hr⟩ := hup
    rw [frees_cons_true hr, tail_cons] at htail
    obtain ⟨haddr, hrpos, hR'⟩ := hR
    have hadd : addUnits b.addr b.units = r.addr := haddr.symm
    have hRne' : ∀ c ∈ R', c.addr ≠ b.addr := fun c hc => hRne c (mem_cons_of_mem r hc)
    have hjoin : h.joinUpper b.addr (before base L) = { h with
        size := update h.size b.addr (b.units + r.units)
        next := update h.next b.addr (h.next r.addr) } := by
      rw [Heap.joinUpper, htail.1, hsize, if_pos hadd, hsized r (by simp)]
    have hapR' := (isChain_cons.1 (isChain_cons.1 hapR).2)
    refine ⟨b.units + r.units, R', ?_, (lives_cons_true hr).symm, Nat.le_add_right _ _⟩
    rw [hjoin]
    refine ⟨hL, ?_, by omega, hapL, hapR'.2, fun c hc => ?_, fun c hc => ?_, fun c hc => ?_,
      update_self .., ?_, hlinks' _, ?_⟩
    · rw [addUnits_add, hadd]
      exact hR'
    · have := hapR'.1 c hc
      simpa [hr] using this
    · exact (update_of_ne (hLne c hc) ..).trans (hsized c (mem_append_left _ hc))
    · exact (update_of_ne (hRne' c hc) ..).trans
        (hsized c (mem_append_right _ (mem_cons_of_mem r hc)))
    · exact (update_of_ne (hfree base mem_cons_self) ..).trans ho.size_base
    · refine htail.2.move (fun a ha => update_of_ne ?_ ..) (update_self ..)
      obtain ⟨c, hc, -, rfl⟩ := mem_frees.1 ha
      exact hRne' c hc
  · -- it is not, so the list does not go on where the block ends
    have hhead : ∀ r ∈ R.head?, r.free = false := by
      intro r hr
      cases R with
      | nil => cases hr
      | cons r' R' =>
        cases hr
        exact Bool.eq_false_iff.2 fun hf => hup ⟨r, R', rfl, hf⟩
    have hne : addUnits b.addr (h.size b.addr) ≠ h.next (before base L) := by
      rw [hsize]
      intro he
      change b.stop = _ at he
      rcases htail.next_mem with hmem | hend
      · obtain ⟨c, hc, hcf, hca⟩ := mem_frees.1 hmem
        cases R with
        | nil => cases hc
        | cons r R' =>
          have hra : r.addr = c.addr := by rw [hca, ← he]; exact hR.1
          have hrc : r = c := hR.addr_inj mem_cons_self hc hra
          have hrf := hhead r rfl
          rw [hrc, hcf] at hrf
          cases hrf
      · omega
    have hjoin : h.joinUpper b.addr (before base L) =
        { h with next := update h.next b.addr (h.next (before base L)) } := by
      rw [Heap.joinUpper, if_neg hne]
    refine ⟨b.units, R, ?_, rfl, le_rfl⟩
    rw [hjoin]
    refine ⟨hL, hR, hpos, hapL, (isChain_cons.1 hapR).2, hhead,
      fun c hc => hsized c (mem_append_left _ hc), fun c hc => hsized c (mem_append_right _ hc),
      hsize, ho.size_base, hlinks' _, ?_⟩
    refine htail.move (fun a ha => update_of_ne ?_ ..) (update_self ..)
    obtain ⟨c, hc, -, rfl⟩ := mem_frees.1 ha
    exact hRne c hc

section Opened

variable {bp u : ℕ}

/-- The block before on the list lies below. -/
theorem Opened.before_lt (hbase : base < lo) (ho : Opened base lo h L bp u R) :
    before base L < bp := by
  have hlo := ho.left.bounds.1
  rcases mem_cons.1 (before_mem base L) with he | hmem
  · omega
  · obtain ⟨c, hc, -, hca⟩ := mem_frees.1 hmem
    have := ho.left.bounds.2 c hc
    omega

theorem Opened.lt_right (ho : Opened base lo h L bp u R) : ∀ c ∈ R, bp < c.addr := by
  intro c hc
  have hstop : bp < addUnits bp u := by
    have := ho.pos
    change bp < bp + 16 * u
    omega
  have := ho.right.bounds.2 c hc
  omega

/-- The list up to the block before does not depend on where that one points. -/
theorem Opened.links_before (hbase : base < lo) (ho : Opened base lo h L bp u R) (v : ℕ) :
    Links (update h.next (before base L) v) base (frees L) := by
  have hnodup : (base :: frees L).Nodup := (ho.left.sorted_frees hbase).imp fun hlt => hlt.ne
  exact ho.links.congr (fun a _ hne => update_of_ne hne ..) hnodup

/-- A free neighbour below is the last on the list so far, and takes the block in. -/
theorem Opened.joinLower_free (hbase : base < lo) {L' : List Block} {l : Block}
    (ho : Opened base lo h (L' ++ [l]) bp u R) (hl : l.free = true) :
    ∃ bs, Ordered base lo
        { h.joinLower bp (before base (L' ++ [l])) with freep := before base (L' ++ [l]) } bs ∧
      lives bs = lives (L' ++ [l]) ++ lives R ∧ ∃ c ∈ bs, c.free = true ∧ u ≤ c.units := by
  obtain ⟨mid, hL', haddr, hlpos, hend⟩ := tiled_append.1 ho.left
  have hp : before base (L' ++ [l]) = l.addr := by
    rw [before, frees_append, frees_cons_true hl]
    exact getLastD_concat
  have hsl : h.size l.addr = l.units := ho.sized_left l (by simp)
  have hlend : addUnits l.addr l.units = bp := hend
  have hjoin : h.joinLower bp (before base (L' ++ [l])) = { h with
      size := update h.size l.addr (l.units + u)
      next := update h.next l.addr (h.next bp) } := by
    rw [Heap.joinLower, hp, hsl, if_pos hlend, ho.size]
  have hL'lt : ∀ c ∈ L', c.addr ≠ l.addr := fun c hc => by
    have := hL'.bounds.2 c hc
    omega
  have hllt : l.addr < bp := hp ▸ ho.before_lt hbase
  refine ⟨L' ++ ⟨l.addr, l.units + u, true⟩ :: R, ?_, ?_, ⟨l.addr, l.units + u, true⟩, by simp, rfl,
    Nat.le_add_left _ _⟩
  · rw [hjoin]
    obtain ⟨hapL', -, hlast⟩ := isChain_append.1 ho.apart_left
    refine ⟨?_, ?_, fun c hc => ?_, ?_, ?_, ?_⟩
    · refine tiled_append.2 ⟨mid, hL', haddr, Nat.add_pos_left hlpos u, ?_⟩
      change Tiled (addUnits l.addr (l.units + u)) R h.brk
      rw [addUnits_add, hlend]
      exact ho.right
    · refine isChain_append.2 ⟨hapL', isChain_cons.2 ⟨fun r hr => ?_, ho.apart_right⟩,
        fun a ha c hc => ?_⟩
      · simp [ho.head r hr]
      · cases hc
        have := hlast a ha l rfl
        simpa [hl] using this
    · simp only [mem_append, mem_cons] at hc
      rcases hc with hc | rfl | hc
      · exact (update_of_ne (hL'lt c hc) ..).trans (ho.sized_left c (by simp [hc]))
      · exact update_self ..
      · exact (update_of_ne (by have := ho.lt_right c hc; omega) ..).trans (ho.sized_right c hc)
    · have hlb : base ≠ l.addr := by
        have := hL'.bounds.1
        omega
      exact (update_of_ne hlb ..).trans ho.size_base
    · have hfr : frees (L' ++ ⟨l.addr, l.units + u, true⟩ :: R) = frees (L' ++ [l]) ++ frees R := by
        rw [frees_append, frees_append, frees_cons_true rfl, frees_cons_true hl, append_assoc]
        rfl
      rw [hfr]
      refine tail_append.2 ⟨hp ▸ ho.links_before hbase (h.next bp), ?_⟩
      refine ho.tail.move (fun a ha => update_of_ne ?_ ..) ?_
      · obtain ⟨c, hc, -, rfl⟩ := mem_frees.1 ha
        have := ho.lt_right c hc
        omega
      · exact (congrArg (update h.next l.addr (h.next bp)) hp).trans (update_self ..)
    · rw [hp]
      exact mem_cons_of_mem _ (mem_frees.2 ⟨⟨l.addr, l.units + u, true⟩, by simp, rfl, rfl⟩)
  · rw [lives_append, lives_append, lives_cons_true rfl, lives_cons_true hl]
    simp [lives]

/-- Without one, the block before on the list does not end where the block starts. -/
theorem Opened.before_ends_below (hbase : base < lo) (ho : Opened base lo h L bp u R)
    (hlow : ¬∃ L' l, L = L' ++ [l] ∧ l.free = true) :
    addUnits (before base L) (h.size (before base L)) ≠ bp := by
  have hlo := ho.left.bounds.1
  intro he
  rcases mem_cons.1 (before_mem base L) with hb | hmem
  · rw [hb, ho.size_base] at he
    change base + 16 * 0 = bp at he
    omega
  · obtain ⟨c, hc, hcf, hca⟩ := mem_frees.1 hmem
    rw [← hca, ho.sized_left c hc] at he
    rcases eq_nil_or_concat' L with rfl | ⟨L', l, rfl⟩
    · cases hc
    · obtain ⟨mid, hL', haddr, hlpos, hend⟩ := tiled_append.1 ho.left
      have hlend : l.stop = bp := hend
      have hlstop := Block.lt_stop hlpos
      rcases mem_append.1 hc with hc' | hc'
      · have hcb := (hL'.bounds.2 c hc').2.2
        change c.stop = bp at he
        omega
      · rw [mem_singleton.1 hc'] at hcf
        exact hlow ⟨L', l, rfl, hcf⟩

/-- Without one, the block goes on the list. -/
theorem Opened.joinLower_alone (hbase : base < lo) (ho : Opened base lo h L bp u R)
    (hlow : ¬∃ L' l, L = L' ++ [l] ∧ l.free = true) :
    ∃ bs, Ordered base lo { h.joinLower bp (before base L) with freep := before base L } bs ∧
      lives bs = lives L ++ lives R ∧ ∃ c ∈ bs, c.free = true ∧ u ≤ c.units := by
  have hjoin : h.joinLower bp (before base L) =
      { h with next := update h.next (before base L) bp } := by
    rw [Heap.joinLower, if_neg (ho.before_ends_below hbase hlow)]
  refine ⟨L ++ ⟨bp, u, true⟩ :: R, ?_, ?_, ⟨bp, u, true⟩, by simp, rfl, le_rfl⟩
  · rw [hjoin]
    refine ⟨tiled_append.2 ⟨bp, ho.left, rfl, ho.pos, ho.right⟩, ?_, fun c hc => ?_,
      ho.size_base, ?_, ?_⟩
    · refine isChain_append.2 ⟨ho.apart_left, isChain_cons.2 ⟨fun r hr => ?_, ho.apart_right⟩,
        fun a ha c hc => ?_⟩
      · simp [ho.head r hr]
      · cases hc
        rintro ⟨haf, -⟩
        rcases eq_nil_or_concat' L with rfl | ⟨L', l, rfl⟩
        · cases ha
        · rw [getLast?_concat, Option.mem_some] at ha
          exact hlow ⟨L', l, rfl, ha ▸ haf⟩
    · simp only [mem_append, mem_cons] at hc
      rcases hc with hc | rfl | hc
      · exact ho.sized_left c hc
      · exact ho.size
      · exact ho.sized_right c hc
    · rw [frees_append, frees_cons_true rfl]
      refine tail_append.2 ⟨ho.links_before hbase bp, tail_cons.2 ⟨update_self .., ?_⟩⟩
      refine ho.tail.move (fun a ha => update_of_ne ?_ ..)
        (update_of_ne (ho.before_lt hbase).ne' ..)
      obtain ⟨c, hc, -, rfl⟩ := mem_frees.1 ha
      exact ((ho.before_lt hbase).trans (ho.lt_right c hc)).ne'
    · exact before_mem_append base L _
  · rw [lives_append, lives_cons_true rfl]

/-- Coalescing with the lower neighbour, or putting the block on the list, closes it again. -/
theorem Opened.joinLower (hbase : base < lo) (ho : Opened base lo h L bp u R) :
    ∃ bs, Ordered base lo { h.joinLower bp (before base L) with freep := before base L } bs ∧
      lives bs = lives L ++ lives R ∧ ∃ c ∈ bs, c.free = true ∧ u ≤ c.units := by
  by_cases hlow : ∃ L' l, L = L' ++ [l] ∧ l.free = true
  · obtain ⟨L', l, rfl, hl⟩ := hlow
    exact ho.joinLower_free hbase hl
  · exact ho.joinLower_alone hbase hlow

end Opened

/-- `free`, once it has found its place, frees the block. -/
theorem Ordered.insert (hbase : base < lo) (ho : Ordered base lo h (L ++ b :: R))
    (hb : b.free = false) :
    ∃ bs, Ordered base lo (h.insert b.addr (before base L)) bs ∧ lives bs = lives L ++ lives R ∧
      ∃ c ∈ bs, c.free = true ∧ b.units ≤ c.units := by
  obtain ⟨u, R', hopen, hR', hu⟩ := ho.joinUpper hbase hb
  obtain ⟨bs, hbs, hlives, c, hc, hcf, hcu⟩ := hopen.joinLower hbase
  exact ⟨bs, hbs, hlives.trans (by rw [hR']), c, hc, hcf, hu.trans hcu⟩

end Insert

/-! ## Finding the place of a block -/

section Search

variable {base : ℕ} {h : Heap} {bp p : ℕ} {fuel : ℕ}

/-- The loop of `free` stops at a node. -/
def Stops (h : Heap) (bp p : ℕ) : Prop :=
  (p < bp ∧ bp < h.next p) ∨ (h.next p ≤ p ∧ (p < bp ∨ bp < h.next p))

theorem search_of_stops (hp : Stops h bp p) : h.search bp (fuel + 1) p = some p := by
  rw [Heap.search]
  split_ifs with h₁ h₂
  · rfl
  · rfl
  · exact absurd hp (not_or.2 ⟨h₁, h₂⟩)

theorem search_of_not_stops (hp : ¬ Stops h bp p) :
    h.search bp (fuel + 1) p = h.search bp fuel (h.next p) := by
  rw [Heap.search, if_neg fun hc => hp (Or.inl hc), if_neg fun hc => hp (Or.inr hc)]

/-- The loop walks past the nodes at which it does not stop. -/
theorem search_walk {w : List ℕ} (hlinks : Links h.next p w) (hd : (p :: w).Nodup)
    (hgo : ∀ u ∈ p :: w, u ≠ w.getLastD p → ¬ Stops h bp u) (hstop : Stops h bp (w.getLastD p))
    (hfuel : w.length < fuel) : h.search bp fuel p = some (w.getLastD p) := by
  induction w generalizing p fuel with
  | nil =>
    obtain ⟨k, rfl⟩ := Nat.exists_eq_add_of_lt hfuel
    exact search_of_stops hstop
  | cons y w ih =>
    obtain ⟨k, rfl⟩ := Nat.exists_eq_add_of_lt hfuel
    rw [getLastD_cons] at hgo hstop ⊢
    have hne : p ≠ w.getLastD y := fun he =>
      (nodup_cons.1 hd).1 (he ▸ getLastD_mem_cons)
    rw [search_of_not_stops (hgo p mem_cons_self hne), hlinks.1]
    refine ih hlinks.2 (nodup_cons.1 hd).2 (fun u hu => hgo u (mem_cons_of_mem p hu))
      hstop ?_
    rw [length_cons] at hfuel ⊢
    omega

/-- Two neighbours in a sorted list. -/
theorem lt_of_sorted {l l₁ l₂ : List ℕ} {x y : ℕ} (hs : l.Pairwise (· < ·))
    (he : l = l₁ ++ x :: y :: l₂) :
    x < y := by
  rw [he] at hs
  exact rel_of_pairwise_cons (pairwise_append.1 hs).2.1 mem_cons_self

/-- The loop stops at the free block before the one given, and at no other. -/
theorem Ordered.stops_iff (hbase : base < lo) (ho : Ordered base lo h (L ++ b :: R))
    (hb : b.free = false)
    (hp : p ∈ base :: frees (L ++ b :: R)) : Stops h b.addr p ↔ p = before base L := by
  obtain ⟨mid, hL, hmid, hpos, hR⟩ := tiled_append.1 ho.tiled
  subst hmid
  have hring := ho.ring
  rw [frees_append, frees_cons_false hb] at hring hp
  obtain ⟨hlinks, htail⟩ := tail_append.1 hring
  change Tail h.next (before base L) (frees R) base at htail
  obtain ⟨hlo, hstop, hbelow, habove⟩ := ho.tiled.around
  have hLlt : ∀ a ∈ base :: frees L, a < b.addr := by
    intro a ha
    rcases mem_cons.1 ha with rfl | ha
    · omega
    · obtain ⟨c, hc, -, rfl⟩ := mem_frees.1 ha
      exact hbelow c hc
  have hRgt : ∀ a ∈ frees R, b.addr < a := by
    intro a ha
    obtain ⟨c, hc, -, rfl⟩ := mem_frees.1 ha
    exact hstop.trans_le (habove c hc)
  have hbefore : before base L < b.addr := hLlt _ (before_mem base L)
  constructor
  · intro hs
    by_contra hne
    rw [← cons_append] at hp
    rcases mem_append.1 hp with hpL | hpR
    · -- below: the next one is also below
      obtain ⟨l₁, l₂, he⟩ := hlinks.split hpL hne
      have hlt := lt_of_sorted (hL.sorted_frees hbase) he
      have hnext := hLlt (h.next p) (he ▸ by simp)
      rcases hs with hs | hs <;> omega
    · -- above: the next one is above too, or it is `BASE`
      have hgt := hRgt p hpR
      by_cases hlast : p = (frees R).getLastD (before base L)
      · have hnext : h.next p = base := hlast ▸ htail.2
        rcases hs with hs | hs <;> omega
      · obtain ⟨l₁, l₂, he⟩ := htail.1.split (mem_cons_of_mem _ hpR) hlast
        have hsorted : (before base L :: frees R).Pairwise (· < ·) :=
          pairwise_cons.2 ⟨fun a ha => lt_trans hbefore (hRgt a ha),
            (pairwise_cons.1 (hR.sorted_frees (lt_trans hbefore hstop))).2⟩
        have hlt := lt_of_sorted hsorted he
        rcases hs with hs | hs <;> omega
  · rintro rfl
    rcases htail.next_mem with hmem | hend
    · exact .inl ⟨hbefore, hRgt _ hmem⟩
    · refine .inr ⟨?_, Or.inl hbefore⟩
      rw [hend]
      rcases mem_cons.1 (before_mem base L) with he | hmem
      · exact he.ge
      · have := rel_of_pairwise_cons (hL.sorted_frees hbase) hmem
        omega

theorem Ordered.nodup (hbase : base < lo) (ho : Ordered base lo h bs) : (base :: frees bs).Nodup :=
  (ho.tiled.sorted_frees hbase).imp fun hlt => hlt.ne

/-- The loop of `free` finds the place of a block. -/
theorem Ordered.search (hbase : base < lo) (ho : Ordered base lo h (L ++ b :: R))
    (hb : b.free = false) :
    ∃ k, ∀ fuel, k ≤ fuel → h.search b.addr fuel h.freep = some (before base L) := by
  have hmem := before_mem_append base L (b :: R)
  obtain ⟨w, hlinks, hlast, hnodup, hin⟩ := ho.ring.path (ho.nodup hbase) ho.rover hmem
  refine ⟨w.length + 1, fun fuel hfuel => ?_⟩
  rw [← hlast]
  refine search_walk hlinks hnodup (fun u hu hne hs => ?_) ?_ hfuel
  · rw [hlast] at hne
    exact hne ((ho.stops_iff hbase hb (hin u hu)).1 hs)
  · rw [hlast]
    exact (ho.stops_iff hbase hb hmem).2 rfl

/-- **`free`** returns, with the block on the list. -/
theorem Ordered.free (hbase : base < lo) (ho : Ordered base lo h (L ++ b :: R))
    (hb : b.free = false) :
    ∃ k h', (∀ fuel, k ≤ fuel → h.free fuel (addUnits b.addr 1) = some h') ∧
      ∃ bs, Ordered base lo h' bs ∧ lives bs = lives L ++ lives R ∧
        ∃ c ∈ bs, c.free = true ∧ b.units ≤ c.units := by
  obtain ⟨k, hk⟩ := ho.search hbase hb
  obtain ⟨bs, hbs⟩ := ho.insert hbase hb
  refine ⟨k, h.insert b.addr (before base L), fun fuel hfuel => ?_, bs, hbs⟩
  have hsub : addUnits b.addr 1 - HEADER_SIZE = b.addr := Nat.add_sub_cancel b.addr 16
  have hne : addUnits b.addr 1 ≠ 0 := Nat.succ_ne_zero (b.addr + 15)
  rw [Heap.free, if_neg hne, hsub, hk fuel hfuel]
  rfl

end Search

end Xv6.User
