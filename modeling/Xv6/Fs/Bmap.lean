import Xv6.Fs.Alloc

/-!
# Files as byte arrays, and `bmap`

`Vol.blockAt` is the block map of an inode and `Vol.fileByte` the file it spells,
with holes reading as zeros.  `Grown ip s s'` says that `s'` is `s` with some
blocks added to the inode in cache entry `ip`: everything listed stays where it
was, added blocks are zeroed, and so every file reads as before
(`Grown.fileByte`).

* `wp_bmap` — `bmap` returns the block at an index, adding it and the indirect
  block where they are missing; `Vol.touched` are the blocks it logs.
-/

namespace Xv6.Fs

open Lib Prog List

/-! ## The block map -/

/-- The place of block `k` of a file. -/
def Place.nth (k : ℕ) : Option Place :=
  if h : k < NDIRECT then some (.addr ⟨k, Nat.lt_succ_of_lt h⟩)
  else if h : k - NDIRECT < NINDIRECT then some (.entry ⟨k - NDIRECT, h⟩)
  else none

theorem Place.nth_of_lt {k : ℕ} (h : k < NDIRECT) :
    Place.nth k = some (.addr ⟨k, Nat.lt_succ_of_lt h⟩) := dif_pos h

theorem Place.nth_of_le {k : ℕ} (h : ¬k < NDIRECT) (h' : k - NDIRECT < NINDIRECT) :
    Place.nth k = some (.entry ⟨k - NDIRECT, h'⟩) := by
  rw [nth, dif_neg h, dif_pos h']

theorem Place.nth_inj {k k' : ℕ} {p : Place} (h : Place.nth k = some p)
    (h' : Place.nth k' = some p) : k = k' := by
  cases p with
  | addr j =>
    rw [nth] at h h'
    split_ifs at h h' <;> simp only [Option.some.injEq, Place.addr.injEq, reduceCtorEq] at h h'
    exact Fin.mk.inj (h.trans h'.symm)
  | entry e =>
    rw [nth] at h h'
    split_ifs at h h' <;> simp only [Option.some.injEq, Place.entry.injEq, reduceCtorEq] at h h'
    have := Fin.mk.inj (h.trans h'.symm)
    omega

/-- No block of a file is the indirect block. -/
theorem Place.nth_ne_indirect (k : ℕ) : Place.nth k ≠ some (.addr Dinode.indirect) := by
  rw [nth]
  split_ifs with h
  · intro he
    have hk : k = NDIRECT := by simpa [Dinode.indirect, Fin.ext_iff] using he
    omega
  · simp
  · simp

namespace Vol

variable {τ : Type} {s s' s'' : Vol τ} {E : String → Prop} {me : τ} {F : Finset ℕ} {ip : Fin NINODE}

/-- The address of block `k` of inode `i`, 0 for none. -/
def blockAt (s : Vol τ) (i k : ℕ) : ℕ := (Place.nth k).elim 0 fun p => s.refs (i, p)

/-- Byte `o` of inode `i`; a hole reads as zeros. -/
def fileByte (s : Vol τ) (i o : ℕ) : UInt8 :=
  if s.blockAt i (o / BSIZE) = 0 then 0 else (s.blk (s.blockAt i (o / BSIZE))).byte (o % BSIZE)

theorem blockAt_eq_refs {k : ℕ} {p : Place} (h : Place.nth k = some p) (i : ℕ) :
    s.blockAt i k = s.refs (i, p) := by
  rw [blockAt, h, Option.elim_some]

theorem blockAt_of_none {k : ℕ} (h : Place.nth k = none) (i : ℕ) : s.blockAt i k = 0 := by
  rw [blockAt, h, Option.elim_none]

/-! ## Adding blocks to a file -/

/-- `s'` is `s` with zeroed blocks added to the inode in cache entry `ip`. -/
structure Grown (ip : Fin NINODE) (s s' : Vol τ) : Prop where
  /-- The volume stays consistent. -/
  sound : Sound s'
  /-- Same superblock. -/
  sb : s'.sb = s.sb
  /-- Same holders. -/
  held : s'.held = s.held
  /-- Same open files. -/
  file : s'.file = s.file
  /-- The other cache entries are unchanged. -/
  slots : ∀ jp, jp ≠ ip → s'.inode jp = s.inode jp
  /-- In this one only the addresses change. -/
  inode : s'.inode ip =
    { s.inode ip with d := { (s.inode ip).d with addrs := (s'.inode ip).d.addrs } }
  /-- The inodes on disk are unchanged. -/
  disk : ∀ i, i < s.sb.ninodes → s'.disk i = s.disk i
  /-- The other inodes list what they did. -/
  others : ∀ i p, i ≠ s.num ip → s'.refs (i, p) = s.refs (i, p)
  /-- This one lists what it did. -/
  keep : ∀ p, s.refs (s.num ip, p) ≠ 0 → s'.refs (s.num ip, p) = s.refs (s.num ip, p)
  /-- Listed blocks other than this inode's indirect block keep their contents. -/
  blk : ∀ k, s.refs k ≠ 0 → k ≠ (s.num ip, .addr Dinode.indirect) →
    s'.blk (s.refs k) = s.blk (s.refs k)
  /-- What is new is zeroed. -/
  fresh : ∀ k, s.blockAt (s.num ip) k = 0 → s'.blockAt (s.num ip) k ≠ 0 →
    s'.blk (s'.blockAt (s.num ip) k) = Block.zero
  /-- Marked blocks stay marked. -/
  marked : ∀ x, s.Marked x → s'.Marked x

namespace Grown

theorem refl (h : Sound s) (ip : Fin NINODE) : Grown ip s s where
  sound := h
  sb := rfl
  held := rfl
  file := rfl
  slots _ _ := rfl
  inode := rfl
  disk _ _ := rfl
  others _ _ _ := rfl
  keep _ _ := rfl
  blk _ _ _ := rfl
  fresh _ h0 h1 := absurd h0 h1
  marked _ hx := hx

theorem num (h : Grown ip s s') : s'.num ip = s.num ip := by rw [Vol.num, h.inode]

theorem loaded (h : Grown ip s s') (hl : s.Loaded ip) : s'.Loaded ip := by
  rw [Loaded, h.inode]
  exact hl

theorem itype (h : Grown ip s s') : (s'.inode ip).d.itype = (s.inode ip).d.itype := by rw [h.inode]

theorem size (h : Grown ip s s') : (s'.inode ip).d.size = (s.inode ip).d.size := by rw [h.inode]

theorem keep_blockAt (h : Grown ip s s') {k : ℕ} (h0 : s.blockAt (s.num ip) k ≠ 0) :
    s'.blockAt (s.num ip) k = s.blockAt (s.num ip) k := by
  cases hp : Place.nth k with
  | none => exact absurd (blockAt_of_none hp _) h0
  | some p =>
    rw [blockAt_eq_refs hp] at h0 ⊢
    rw [blockAt_eq_refs hp, h.keep p h0]

/-- The blocks of files keep their contents. -/
theorem blk_blockAt (h : Grown ip s s') {i k : ℕ} (h0 : s.blockAt i k ≠ 0) :
    s'.blk (s.blockAt i k) = s.blk (s.blockAt i k) := by
  cases hp : Place.nth k with
  | none => exact absurd (blockAt_of_none hp _) h0
  | some p =>
    rw [blockAt_eq_refs hp] at h0 ⊢
    apply h.blk (i, p) h0
    intro he
    have hpi : p = .addr Dinode.indirect := congrArg Prod.snd he
    exact Place.nth_ne_indirect k (hpi ▸ hp)

theorem trans (h : Grown ip s s') (h' : Grown ip s' s'') : Grown ip s s'' where
  sound := h'.sound
  sb := h'.sb.trans h.sb
  held := h'.held.trans h.held
  file := h'.file.trans h.file
  slots jp hj := (h'.slots jp hj).trans (h.slots jp hj)
  inode := by
    rw [h'.inode, h.inode]
  disk i hi := (h'.disk i (h.sb ▸ hi)).trans (h.disk i hi)
  others i p hi := (h'.others i p (h.num ▸ hi)).trans (h.others i p hi)
  keep p hp := by
    have h1 := h.keep p hp
    rw [← h1] at hp
    have h2 := h'.keep p
    rw [h.num] at h2
    rw [h2 hp, h1]
  blk k hk hne := by
    have hk' : s'.refs k = s.refs k := by
      obtain ⟨i, p⟩ := k
      by_cases hi : i = s.num ip
      · subst hi
        exact h.keep p hk
      · exact h.others i p hi
    have h2 := h'.blk k (hk'.symm ▸ hk) (by rw [h.num]; exact hne)
    rw [hk'] at h2
    rw [h2, h.blk k hk hne]
  fresh k h0 h2 := by
    by_cases h1 : s'.blockAt (s.num ip) k = 0
    · have hf := h'.fresh k
      rw [h.num] at hf
      exact hf h1 h2
    · have hkeep := h'.keep_blockAt (k := k)
      rw [h.num] at hkeep
      rw [hkeep h1, h'.blk_blockAt h1, h.fresh k h0 h1]
  marked x hx := h'.marked x (h.marked x hx)

/-- **Adding blocks changes no file.** -/
theorem fileByte (h : Grown ip s s') (i o : ℕ) : s'.fileByte i o = s.fileByte i o := by
  simp only [Vol.fileByte]
  by_cases h0 : s.blockAt i (o / BSIZE) = 0
  · rw [if_pos h0]
    split_ifs with h1
    · rfl
    · have hi : i = s.num ip := by
        by_contra hi
        apply h1
        rw [blockAt] at h0 ⊢
        cases hp : Place.nth (o / BSIZE) with
        | none => rfl
        | some p =>
          rw [hp, Option.elim_some] at h0
          rw [Option.elim_some, h.others i p hi, h0]
      subst hi
      rw [h.fresh _ h0 h1, Block.byte_zero]
  · have h1 : s'.blockAt i (o / BSIZE) = s.blockAt i (o / BSIZE) := by
      by_cases hi : i = s.num ip
      · subst hi
        exact h.keep_blockAt h0
      · rw [blockAt, blockAt]
        cases Place.nth (o / BSIZE) with
        | none => rfl
        | some p => exact h.others i p hi
    rw [if_neg h0, h1, if_neg h0, h.blk_blockAt h0]

end Grown

/-! ## One block more -/

section Add

variable {b : ℕ} {rest : List ℕ} {j : Fin (NDIRECT + 1)}

theorem Sound.setHeld (h : Sound s) (b : ℕ) (t : Option τ) : Sound (s.setHeld b t) :=
  ⟨h.wf, h.super, h.meta_marked, h.refs, h.slots, h.inums⟩

/-- Allocating the block of an address field. -/
theorem Sound.grown_addr (h : Sound s) (hl : s.Loaded ip) (ht : (s.inode ip).d.itype ≠ 0)
    (hb : b ∈ s.free) (h0 : (s.inode ip).d.addr j = 0) :
    Grown ip s ((s.alloc b).modDinode ip fun d => d.setAddr j b) := by
  have ha := h.alloc hb
  have hrefs := h.refs_alloc hb
  have hsize := (mem_free.1 hb).1
  have hb32 : b < 2 ^ 32 := lt_trans hsize h.wf.size_lt
  have hzero : j = Dinode.indirect → (s.alloc b).blk b = Block.zero := fun _ => blk_alloc_self s b
  have hsame : ∀ k, k ≠ (s.num ip, Place.addr j) →
      ((s.alloc b).modDinode ip fun d => d.setAddr j b).refs k = s.refs k := by
    intro k hk
    rw [ha.refs_setAddr_of_ne hl hb32 h0 hzero hk, hrefs]
  have hself : ((s.alloc b).modDinode ip fun d => d.setAddr j b).refs (s.num ip, .addr j) = b :=
    ha.refs_setAddr_self hl ht hb32
  have hold : s.refs (s.num ip, .addr j) = 0 := by rw [h.refs_num hl ht, Place.of, h0]
  refine
    { sound := ?_
      sb := rfl
      held := rfl
      file := rfl
      slots := fun jp hj => inode_modDinode_of_ne hj _
      inode := ?_
      disk := fun i hi => h.disk_alloc hb hi
      others := fun i p hi => hsame _ fun he => hi (congrArg Prod.fst he)
      keep := fun p hp => hsame _ fun he => hp (he ▸ hold)
      blk := ?_
      fresh := ?_
      marked := fun x hx => (h.marked_alloc hb).2 (Or.inr hx) }
  · exact ha.setAddr hl ht ((h.marked_alloc hb).2 (Or.inl rfl))
      (fun k => by rw [hrefs]; exact h.free_unlisted hb k) h0 hzero
  · rw [inode_modDinode_self]
    rfl
  · intro k hk _
    exact blk_alloc_of_ne (h.free_unlisted hb k) (h.refs_ne_bblock hsize k)
  · intro k h1 h2
    cases hp : Place.nth k with
    | none => exact absurd (blockAt_of_none hp _) h2
    | some p =>
      rw [blockAt_eq_refs hp] at h1 h2 ⊢
      by_cases hpj : p = .addr j
      · subst hpj
        rw [hself]
        exact blk_alloc_self s b
      · rw [hsame _ fun he => hpj (congrArg Prod.snd he)] at h2
        exact absurd h1 h2

/-- Allocating the block of an entry of the indirect block. -/
theorem Sound.grown_entry (h : Sound s) (hl : s.Loaded ip) (ht : (s.inode ip).d.itype ≠ 0)
    (hb : b ∈ s.free) {a : ℕ} (haddr : (s.inode ip).d.addr Dinode.indirect = a) (ha0 : a ≠ 0)
    {e : Fin NINDIRECT} (h0 : (s.blk a).word e = 0) :
    Grown ip s ((s.alloc b).put a (((s.alloc b).blk a).setWord e b)) := by
  have ha := h.alloc hb
  have hrefs := h.refs_alloc hb
  have hsize := (mem_free.1 hb).1
  have hb32 : b < 2 ^ 32 := lt_trans hsize h.wf.size_lt
  have hind := h.refs_indirect hl ht haddr
  obtain ⟨hdata, hasize, -⟩ := h.marked_indirect hl ht haddr ha0
  have hba : b ≠ a := fun he => h.free_unlisted hb _ (hind.trans he.symm)
  have hsame : ∀ k, k ≠ (s.num ip, Place.entry e) →
      ((s.alloc b).put a (((s.alloc b).blk a).setWord e b)).refs k = s.refs k := by
    intro k hk
    rw [← hrefs]
    exact ha.refs_setEntry_of_ne hl ht haddr ha0 hk
  have hself : ((s.alloc b).put a (((s.alloc b).blk a).setWord e b)).refs
      (s.num ip, .entry e) = b := ha.refs_setEntry_self hl ht haddr ha0 hb32
  have hold : s.refs (s.num ip, .entry e) = 0 := by
    rw [h.refs_num hl ht, Place.of, haddr, if_neg ha0, h0]
  refine
    { sound := ?_
      sb := rfl
      held := rfl
      file := rfl
      slots := fun jp hj => rfl
      inode := rfl
      disk := ?_
      others := fun i p hi => hsame _ fun he => hi (congrArg Prod.fst he)
      keep := fun p hp => hsame _ fun he => hp (he ▸ hold)
      blk := ?_
      fresh := ?_
      marked := ?_ }
  · exact (ha.setEntry hl ht haddr ha0 ((h.marked_alloc hb).2 (Or.inl rfl))
      (fun k => by rw [hrefs]; exact h.free_unlisted hb k) e).logged a
  · intro i hi
    rw [← h.disk_alloc hb hi]
    exact disk_setBlk_of_ne (s := s.alloc b) (h.iblock_ne_data hdata hasize hi) _
  · intro k hk hne
    have hka : s.refs k ≠ a := fun he => hne (h.refs.inj _ _ (he.trans hind.symm) hk)
    rw [blk_put_of_ne hka]
    exact blk_alloc_of_ne (h.free_unlisted hb k) (h.refs_ne_bblock hsize k)
  · intro k h1 h2
    cases hp : Place.nth k with
    | none => exact absurd (blockAt_of_none hp _) h2
    | some p =>
      rw [blockAt_eq_refs hp] at h1 h2 ⊢
      by_cases hpe : p = .entry e
      · subst hpe
        rw [hself, blk_put_of_ne hba]
        exact blk_alloc_self s b
      · rw [hsame _ fun he => hpe (congrArg Prod.snd he)] at h2
        exact absurd h1 h2
  · intro x hx
    obtain ⟨h1, h2, h3⟩ := (h.marked_alloc hb).2 (Or.inr hx)
    refine ⟨h1, h2, ?_⟩
    rw [← h3]
    exact bit_setBlk_of_ne (s := s.alloc b) (h.bblock_ne_data hdata h2) _

end Add

/-! ## What mapping a range of blocks takes -/

/-- The address of the indirect block of inode `i`, 0 for none. -/
def indirectOf (s : Vol τ) (i : ℕ) : ℕ := s.refs (i, .addr Dinode.indirect)

/-- How many blocks mapping the indices `K` of inode `i` allocates. -/
def newBlocks (s : Vol τ) (i : ℕ) (K : List ℕ) : ℕ :=
  K.countP (fun k => s.blockAt i k = 0) +
    if (∃ k ∈ K, NDIRECT ≤ k) ∧ s.indirectOf i = 0 then 1 else 0

/-- Mapping the indices `K` of inode `i` writes an entry of the indirect block. -/
def AddsEntry (s : Vol τ) (i : ℕ) (K : List ℕ) : Prop := ∃ k ∈ K, NDIRECT ≤ k ∧ s.blockAt i k = 0

instance (s : Vol τ) (i : ℕ) (K : List ℕ) : Decidable (s.AddsEntry i K) :=
  inferInstanceAs (Decidable (∃ k ∈ K, _))

/-- The blocks mapping the indices `K` of inode `i` allocates. -/
def allocated (s : Vol τ) (i : ℕ) (K : List ℕ) : List ℕ := s.free.take (s.newBlocks i K)

/-- The blocks mapping the indices `K` of inode `i` logs: the new blocks, their free-map
blocks, and the indirect block if it was there and gets an entry. -/
def touched (s : Vol τ) (i : ℕ) (K : List ℕ) : Finset ℕ :=
  (s.allocated i K).toFinset ∪ (s.allocated i K).toFinset.image (bblock · s.sb) ∪
    if s.AddsEntry i K ∧ s.indirectOf i ≠ 0 then {s.indirectOf i} else ∅

/-- What `bmap` has done when it returns `b` for block `k`. -/
structure Mapped (ip : Fin NINODE) (k : ℕ) (s : Vol τ) (b : ℕ) (s' : Vol τ) : Prop where
  /-- It may have added blocks to the inode. -/
  grown : Grown ip s s'
  /-- The block is at its place. -/
  blockAt_eq : s'.blockAt (s.num ip) k = b
  /-- There is one. -/
  ne_zero : b ≠ 0
  /-- The rest of the map is as before. -/
  blockAt_of_ne : ∀ k', k' ≠ k → s'.blockAt (s.num ip) k' = s.blockAt (s.num ip) k'
  /-- A direct block does not need the indirect block. -/
  indirect_of_lt : k < NDIRECT → s'.indirectOf (s.num ip) = s.indirectOf (s.num ip)
  /-- The others do. -/
  indirect_of_le : NDIRECT ≤ k → s'.indirectOf (s.num ip) ≠ 0
  /-- A missing indirect block is among the new blocks. -/
  indirect_mem : s'.indirectOf (s.num ip) = s.indirectOf (s.num ip) ∨
    s'.indirectOf (s.num ip) ∈ s.allocated (s.num ip) [k]
  /-- A missing block is among them, too. -/
  block_mem : b = s.blockAt (s.num ip) k ∨ b ∈ s.allocated (s.num ip) [k]
  /-- If nothing is missing nothing happens. -/
  same : s.newBlocks (s.num ip) [k] = 0 → s' = s
  /-- There were enough free blocks. -/
  enough : s.newBlocks (s.num ip) [k] ≤ s.free.length
  /-- The free blocks left. -/
  free : s'.free = s.free.drop (s.newBlocks (s.num ip) [k])
  /-- The blocks logged. -/
  passed : ∃ l, s'.passed = s.passed ++ l ∧ l.toFinset = s.touched (s.num ip) [k]

section Rules

variable {b : ℕ} {rest : List ℕ} {j : Fin (NDIRECT + 1)} {Q : ℕ → Vol τ → Prop}

theorem wp_blockOf_of_ne (h0 : (s.inode ip).d.addr j ≠ 0) :
    (blockOf me ip j).wp E Q s ↔ Q ((s.inode ip).d.addr j) s := by
  simp [blockOf, wp_bind, h0]

theorem wp_blockOf_of_zero (h : Sound s) (hc : s.Calm) (hroom : s.log.RoomOr E F)
    (hspare : s.Spare E 1) (hF : ∀ b rest, s.free = b :: rest → bblock b s.sb ∈ F)
    (h0 : (s.inode ip).d.addr j = 0)
    (hQ : ∀ b rest, s.free = b :: rest →
      Q b ((s.alloc b).modDinode ip fun d => d.setAddr j b)) : (blockOf me ip j).wp E Q s := by
  simp only [blockOf, bind_eq, wp_bind, wp_look, h0, if_true]
  apply wp_balloc h hc hroom hspare hF
  intro b rest hfree
  simpa using hQ b rest hfree

theorem wp_entryOf_of_ne {a e : ℕ} (hheld : s.held a = none) (h0 : (s.blk a).word e ≠ 0)
    (hQ : Q ((s.blk a).word e) s) : (entryOf me a e).wp E Q s := by
  have hlook : ((s.setHeld a (some me)).blk a).word e ≠ 0 := h0
  simp only [entryOf, bind_eq, wp_bind, wp_read, hheld, true_and, wp_look,
    if_neg hlook, wp_release, setHeld_none s me hheld]
  exact hQ

theorem wp_entryOf_of_zero (h : Sound s) (hidle : ∀ x, s.held x = none)
    (hroom : s.log.RoomOr E F) (hspare : s.Spare E 1)
    (hF : ∀ b rest, s.free = b :: rest → bblock b s.sb ∈ F ∧ b ∈ F) {a e : ℕ}
    (ha : s.Marked a) (h0 : (s.blk a).word e = 0)
    (hQ : ∀ b rest, s.free = b :: rest →
      Q b ((s.alloc b).put a (((s.alloc b).blk a).setWord e b))) :
    (entryOf me a e).wp E Q s := by
  have hlook : ((s.setHeld a (some me)).blk a).word e = 0 := h0
  have hcalm : (s.setHeld a (some me)).Calm := by
    intro x hx
    by_cases hxa : x = a
    · exact hxa ▸ ha
    · exact absurd (hidle x) (by simpa [setHeld, hxa] using hx)
  simp only [entryOf, bind_eq]
  rw [wp_bind, wp_read, wp_bind, wp_look, if_pos hlook, wp_bind]
  refine ⟨hidle a, ?_⟩
  refine wp_balloc (s := s.setHeld a (some me)) (h.setHeld a _) hcalm hroom hspare
    (fun b rest hfree => (hF b rest hfree).1) fun b rest hfree => ?_
  obtain ⟨hF₁, hF₂⟩ := hF b rest hfree
  exact wp_finish (s := s.alloc b) (room_alloc hroom hF₁ hF₂) (hidle a) _ (hQ b rest hfree)

end Rules

section Cases

variable {b k : ℕ} {rest : List ℕ}

theorem newBlocks_singleton (s : Vol τ) (i k : ℕ) : s.newBlocks i [k] =
    (if s.blockAt i k = 0 then 1 else 0) + if NDIRECT ≤ k ∧ s.indirectOf i = 0 then 1 else 0 := by
  simp [newBlocks, countP_cons]

theorem addsEntry_singleton (s : Vol τ) (i k : ℕ) :
    s.AddsEntry i [k] ↔ NDIRECT ≤ k ∧ s.blockAt i k = 0 := by
  simp [AddsEntry]

theorem Sound.blockAt_of_lt (h : Sound s) (hl : s.Loaded ip) (ht : (s.inode ip).d.itype ≠ 0)
    (hk : k < NDIRECT) :
    s.blockAt (s.num ip) k = (s.inode ip).d.addr ⟨k, Nat.lt_succ_of_lt hk⟩ := by
  rw [blockAt_eq_refs (Place.nth_of_lt hk), h.refs_num hl ht, Place.of]

theorem Sound.indirectOf_num (h : Sound s) (hl : s.Loaded ip) (ht : (s.inode ip).d.itype ≠ 0) :
    s.indirectOf (s.num ip) = (s.inode ip).d.addr Dinode.indirect := by
  rw [indirectOf, h.refs_num hl ht, Place.of]

theorem Sound.blockAt_of_le (h : Sound s) (hl : s.Loaded ip) (ht : (s.inode ip).d.itype ≠ 0)
    (hk : ¬k < NDIRECT) (hk' : k - NDIRECT < NINDIRECT) : s.blockAt (s.num ip) k =
      if s.indirectOf (s.num ip) = 0 then 0
      else (s.blk (s.indirectOf (s.num ip))).word (k - NDIRECT) := by
  rw [blockAt_eq_refs (Place.nth_of_le hk hk'), h.refs_num hl ht, Place.of, h.indirectOf_num hl ht]

theorem Sound.mapped_self (h : Sound s) (hb : s.blockAt (s.num ip) k = b) (h0 : b ≠ 0)
    (hind : NDIRECT ≤ k → s.indirectOf (s.num ip) ≠ 0) : Mapped ip k s b s := by
  have hb0 : s.blockAt (s.num ip) k ≠ 0 := hb ▸ h0
  have hnew : s.newBlocks (s.num ip) [k] = 0 := by
    rw [newBlocks_singleton, if_neg hb0, if_neg fun hc => hind hc.1 hc.2]
  refine
    { grown := Grown.refl h ip
      blockAt_eq := hb
      ne_zero := h0
      blockAt_of_ne := fun _ _ => rfl
      indirect_of_lt := fun _ => rfl
      indirect_of_le := hind
      indirect_mem := Or.inl rfl
      block_mem := Or.inl hb.symm
      same := fun _ => rfl
      enough := by rw [hnew]; exact Nat.zero_le _
      free := by rw [hnew, drop_zero]
      passed := ⟨[], (List.append_nil _).symm, ?_⟩ }
  rw [touched, allocated, hnew, if_neg fun hc => hb0 ((addsEntry_singleton s _ k).1 hc.1).2]
  rfl

theorem Sound.mapped_addr (h : Sound s) (hl : s.Loaded ip) (ht : (s.inode ip).d.itype ≠ 0)
    (hk : k < NDIRECT) (hfree : s.free = b :: rest) (h0 : s.blockAt (s.num ip) k = 0) :
    Mapped ip k s b
      ((s.alloc b).modDinode ip fun d => d.setAddr ⟨k, Nat.lt_succ_of_lt hk⟩ b) := by
  have hb : b ∈ s.free := hfree ▸ mem_cons_self
  have hsize := (mem_free.1 hb).1
  have ha := h.alloc hb
  have hrefs := h.refs_alloc hb
  have hb32 : b < 2 ^ 32 := lt_trans hsize h.wf.size_lt
  have haddr : (s.inode ip).d.addr ⟨k, Nat.lt_succ_of_lt hk⟩ = 0 :=
    (h.blockAt_of_lt hl ht hk).symm.trans h0
  have hne : (⟨k, Nat.lt_succ_of_lt hk⟩ : Fin (NDIRECT + 1)) ≠ Dinode.indirect :=
    fun he => Nat.ne_of_lt hk (congrArg Fin.val he)
  have hsame : ∀ p, p ≠ Place.addr ⟨k, Nat.lt_succ_of_lt hk⟩ →
      ((s.alloc b).modDinode ip fun d => d.setAddr ⟨k, Nat.lt_succ_of_lt hk⟩ b).refs
        (s.num ip, p) = s.refs (s.num ip, p) := by
    intro p hp
    rw [← hrefs]
    exact ha.refs_setAddr_of_ne hl hb32 haddr (fun hj => absurd hj hne)
      fun he => hp (congrArg Prod.snd he)
  have hind : ((s.alloc b).modDinode ip fun d => d.setAddr ⟨k, Nat.lt_succ_of_lt hk⟩ b).indirectOf
      (s.num ip) = s.indirectOf (s.num ip) :=
    hsame _ fun he => hne (Place.addr.inj he).symm
  have hnew : s.newBlocks (s.num ip) [k] = 1 := by
    rw [newBlocks_singleton, if_pos h0, if_neg fun hc => absurd hk (Nat.not_lt.2 hc.1)]
  have halloc : s.allocated (s.num ip) [k] = [b] := by
    rw [allocated, hnew, hfree]
    rfl
  refine
    { grown := h.grown_addr hl ht hb haddr
      blockAt_eq := ?_
      ne_zero := Nat.ne_of_gt (Nat.lt_of_succ_lt (h.one_lt_data (h.free_data hb) hsize))
      blockAt_of_ne := ?_
      indirect_of_lt := fun _ => hind
      indirect_of_le := fun hle => absurd hk (Nat.not_lt.2 hle)
      indirect_mem := Or.inl hind
      block_mem := Or.inr (by rw [halloc]; exact mem_singleton_self b)
      same := fun h0 => absurd (hnew.symm.trans h0) (by decide)
      enough := by rw [hnew, hfree]; exact Nat.succ_pos _
      free := ?_
      passed := ⟨_, passed_alloc s b, ?_⟩ }
  · rw [blockAt_eq_refs (Place.nth_of_lt hk)]
    exact ha.refs_setAddr_self hl ht hb32
  · intro k' hk'
    cases hp : Place.nth k' with
    | none => rw [blockAt_of_none hp, blockAt_of_none hp]
    | some p =>
      rw [blockAt_eq_refs hp, blockAt_eq_refs hp]
      apply hsame
      rintro rfl
      exact hk' (Place.nth_inj hp (Place.nth_of_lt hk))
  · rw [hnew, hfree]
    exact h.free_alloc hfree
  · have hno : ¬s.AddsEntry (s.num ip) [k] := fun hc =>
      absurd hk (Nat.not_lt.2 ((addsEntry_singleton s _ k).1 hc).1)
    rw [touched, halloc, if_neg fun hc => hno hc.1]
    simp [Finset.pair_comm]

theorem Sound.mapped_entry (h : Sound s) (hl : s.Loaded ip) (ht : (s.inode ip).d.itype ≠ 0)
    (hk : ¬k < NDIRECT) (hk' : k - NDIRECT < NINDIRECT) (hfree : s.free = b :: rest) {a : ℕ}
    (ha : (s.inode ip).d.addr Dinode.indirect = a) (ha0 : a ≠ 0)
    (h0 : (s.blk a).word (k - NDIRECT) = 0) :
    Mapped ip k s b ((s.alloc b).put a (((s.alloc b).blk a).setWord (k - NDIRECT) b)) := by
  have hb : b ∈ s.free := hfree ▸ mem_cons_self
  have hsize := (mem_free.1 hb).1
  have hsound := h.alloc hb
  have hrefs := h.refs_alloc hb
  have hb32 : b < 2 ^ 32 := lt_trans hsize h.wf.size_lt
  have hnth := Place.nth_of_le hk hk'
  have hia : s.indirectOf (s.num ip) = a := (h.indirectOf_num hl ht).trans ha
  have hblock : s.blockAt (s.num ip) k = 0 := by
    rw [h.blockAt_of_le hl ht hk hk', hia, if_neg ha0, h0]
  have hsame : ∀ p, p ≠ Place.entry ⟨k - NDIRECT, hk'⟩ →
      ((s.alloc b).put a (((s.alloc b).blk a).setWord (k - NDIRECT) b)).refs (s.num ip, p) =
        s.refs (s.num ip, p) := by
    intro p hp
    rw [← hrefs]
    exact hsound.refs_setEntry_of_ne (k := ⟨k - NDIRECT, hk'⟩) hl ht ha ha0
      fun he => hp (congrArg Prod.snd he)
  have hind : ((s.alloc b).put a (((s.alloc b).blk a).setWord (k - NDIRECT) b)).indirectOf
      (s.num ip) = s.indirectOf (s.num ip) := hsame _ (by simp)
  have hnew : s.newBlocks (s.num ip) [k] = 1 := by
    rw [newBlocks_singleton, if_pos hblock, if_neg fun hc => ha0 (hia.symm.trans hc.2)]
  have halloc : s.allocated (s.num ip) [k] = [b] := by
    rw [allocated, hnew, hfree]
    rfl
  refine
    { grown := h.grown_entry hl ht hb ha ha0 (e := ⟨k - NDIRECT, hk'⟩) h0
      blockAt_eq := ?_
      ne_zero := Nat.ne_of_gt (Nat.lt_of_succ_lt (h.one_lt_data (h.free_data hb) hsize))
      blockAt_of_ne := ?_
      indirect_of_lt := fun hlt => absurd hlt hk
      indirect_of_le := fun _ => by rw [hind, hia]; exact ha0
      indirect_mem := Or.inl hind
      block_mem := Or.inr (by rw [halloc]; exact mem_singleton_self b)
      same := fun h0 => absurd (hnew.symm.trans h0) (by decide)
      enough := by rw [hnew, hfree]; exact Nat.succ_pos _
      free := ?_
      passed := ⟨[bblock b s.sb, b, a], ?_, ?_⟩ }
  · rw [blockAt_eq_refs hnth]
    exact hsound.refs_setEntry_self (k := ⟨k - NDIRECT, hk'⟩) hl ht ha ha0 hb32
  · intro k' hne
    cases hp : Place.nth k' with
    | none => rw [blockAt_of_none hp, blockAt_of_none hp]
    | some p =>
      rw [blockAt_eq_refs hp, blockAt_eq_refs hp]
      apply hsame
      rintro rfl
      exact hne (Place.nth_inj hp hnth)
  · have hdata := (h.marked_indirect hl ht ha ha0).1
    rw [hnew, hfree, drop_one, List.tail_cons, ← h.free_alloc hfree]
    refine filter_congr fun x hx => ?_
    rw [show ((s.alloc b).put a (((s.alloc b).blk a).setWord (k - NDIRECT) b)).bit x =
      (s.alloc b).bit x from bit_setBlk_of_ne (s := s.alloc b)
        (h.bblock_ne_data hdata (mem_range.1 hx)) _]
  · rw [passed_put, passed_alloc, append_assoc]
    rfl
  · have hadds : s.AddsEntry (s.num ip) [k] :=
      (addsEntry_singleton s _ k).2 ⟨Nat.not_lt.1 hk, hblock⟩
    rw [touched, halloc, if_pos ⟨hadds, hia ▸ ha0⟩, hia]
    ext x
    simp only [mem_toFinset, mem_cons, not_mem_nil, or_false, Finset.mem_union,
      Finset.mem_image, exists_eq_left, Finset.mem_singleton]
    grind

/-- The volume with an empty indirect block added. -/
theorem Sound.withIndirect (h : Sound s) (hl : s.Loaded ip) (ht : (s.inode ip).d.itype ≠ 0)
    {a : ℕ} {rest : List ℕ} (hfree : s.free = a :: rest)
    (h0 : (s.inode ip).d.addr Dinode.indirect = 0) {s₁ : Vol τ}
    (hs₁ : ((s.alloc a).modDinode ip fun d => d.setAddr Dinode.indirect a) = s₁) :
    s₁.indirectOf (s.num ip) = a ∧ s₁.free = rest ∧
      ∀ x, s₁.blockAt (s.num ip) x = s.blockAt (s.num ip) x := by
  have ha : a ∈ s.free := hfree ▸ mem_cons_self
  have hsound := h.alloc ha
  have ha32 : a < 2 ^ 32 := lt_trans (mem_free.1 ha).1 h.wf.size_lt
  subst hs₁
  refine ⟨hsound.refs_setAddr_self hl ht ha32, h.free_alloc hfree, fun x => ?_⟩
  cases hp : Place.nth x with
  | none => rw [blockAt_of_none hp, blockAt_of_none hp]
  | some p =>
    rw [blockAt_eq_refs hp, blockAt_eq_refs hp, ← h.refs_alloc ha]
    refine hsound.refs_setAddr_of_ne hl ha32 h0 (fun _ => blk_alloc_self s a) fun he => ?_
    have hpi : p = .addr Dinode.indirect := congrArg Prod.snd he
    exact Place.nth_ne_indirect x (hpi ▸ hp)

/-- The indirect block was missing, and so the entry. -/
theorem Sound.mapped_both (h : Sound s) (hl : s.Loaded ip) (ht : (s.inode ip).d.itype ≠ 0)
    (hk : ¬k < NDIRECT) (hk' : k - NDIRECT < NINDIRECT) {a : ℕ} (hfree : s.free = a :: b :: rest)
    (h0 : (s.inode ip).d.addr Dinode.indirect = 0) {s₁ : Vol τ}
    (hs₁ : ((s.alloc a).modDinode ip fun d => d.setAddr Dinode.indirect a) = s₁) {c : ℕ}
    (hm : Mapped ip k s₁ c s') : Mapped ip k s c s' := by
  have ha : a ∈ s.free := hfree ▸ mem_cons_self
  have ha0 : a ≠ 0 := Nat.ne_of_gt (Nat.lt_of_succ_lt (h.one_lt_data (h.free_data ha)
    (mem_free.1 ha).1))
  have hgrown : Grown ip s s₁ := hs₁ ▸ h.grown_addr hl ht ha h0
  obtain ⟨hind₁, hfree₁, hblock₁⟩ := h.withIndirect hl ht hfree h0 hs₁
  have hnum : s₁.num ip = s.num ip := hgrown.num
  have hind : s.indirectOf (s.num ip) = 0 := (h.indirectOf_num hl ht).trans h0
  have hblock : s.blockAt (s.num ip) k = 0 := by
    rw [h.blockAt_of_le hl ht hk hk', if_pos hind]
  have hsb : s₁.sb = s.sb := hgrown.sb
  have hnew : s.newBlocks (s.num ip) [k] = 2 := by
    rw [newBlocks_singleton, if_pos hblock, if_pos ⟨Nat.not_lt.1 hk, hind⟩]
  have hnew₁ : s₁.newBlocks (s.num ip) [k] = 1 := by
    rw [newBlocks_singleton, if_pos ((hblock₁ k).trans hblock),
      if_neg fun hc => ha0 (hind₁.symm.trans hc.2)]
  have halloc : s.allocated (s.num ip) [k] = [a, b] := by
    rw [allocated, hnew, hfree]
    rfl
  have halloc₁ : s₁.allocated (s.num ip) [k] = [b] := by
    rw [allocated, hnew₁, hfree₁]
    rfl
  obtain ⟨g, h1, h2, h3, h4, h5, h6, h7, -, -, h8, l, h9, h10⟩ := hm
  rw [hnum] at h1 h3 h4 h5 h6 h7 h8 h10
  refine
    { grown := hgrown.trans g
      blockAt_eq := h1
      ne_zero := h2
      blockAt_of_ne := fun x hx => (h3 x hx).trans (hblock₁ x)
      indirect_of_lt := fun hlt => absurd hlt hk
      indirect_of_le := h5
      indirect_mem := Or.inr ?_
      block_mem := Or.inr ?_
      same := fun h0 => absurd (hnew.symm.trans h0) (by decide)
      enough := by rw [hnew, hfree]; simp
      free := by rw [h8, hnew₁, hnew, hfree, hfree₁]; rfl
      passed := ⟨[bblock a s.sb, a] ++ l, ?_, ?_⟩ }
  · rw [halloc]
    rw [hind₁, halloc₁] at h6
    rcases h6 with h6 | h6
    · exact h6 ▸ mem_cons_self
    · exact mem_cons_of_mem a h6
  · rw [halloc]
    rw [hblock₁, hblock, halloc₁] at h7
    exact mem_cons_of_mem a (h7.resolve_left h2)
  · rw [h9, ← append_assoc, ← passed_alloc, ← hs₁]
    rfl
  · have hadds : s₁.AddsEntry (s.num ip) [k] :=
      (addsEntry_singleton s₁ _ k).2 ⟨Nat.not_lt.1 hk, (hblock₁ k).trans hblock⟩
    rw [toFinset_append, h10, touched, touched, halloc, halloc₁, hsb,
      if_pos ⟨hadds, hind₁ ▸ ha0⟩, if_neg fun hc => hc.2 hind, hind₁]
    ext x
    simp only [mem_toFinset, mem_cons, not_mem_nil, or_false, Finset.mem_union,
      Finset.mem_image, exists_eq_or_imp, exists_eq_left, Finset.mem_singleton, Finset.notMem_empty]
    grind

/-- With the indirect block in place, one more block is missing. -/
theorem Sound.newBlocks_withIndirect (h : Sound s) (hl : s.Loaded ip)
    (ht : (s.inode ip).d.itype ≠ 0) (hk : ¬k < NDIRECT) (hk' : k - NDIRECT < NINDIRECT) {a : ℕ}
    (hfree : s.free = a :: rest) (h0 : (s.inode ip).d.addr Dinode.indirect = 0) {s₁ : Vol τ}
    (hs₁ : ((s.alloc a).modDinode ip fun d => d.setAddr Dinode.indirect a) = s₁) :
    s₁.newBlocks (s₁.num ip) [k] = 1 := by
  have ha : a ∈ s.free := hfree ▸ mem_cons_self
  have ha0 : a ≠ 0 := Nat.ne_of_gt (Nat.lt_of_succ_lt (h.one_lt_data (h.free_data ha)
    (mem_free.1 ha).1))
  have hnum : s₁.num ip = s.num ip := (hs₁ ▸ h.grown_addr hl ht ha h0 : Grown ip s s₁).num
  obtain ⟨hind₁, -, hblock₁⟩ := h.withIndirect hl ht hfree h0 hs₁
  have hblock : s.blockAt (s.num ip) k = 0 := by
    rw [h.blockAt_of_le hl ht hk hk', if_pos ((h.indirectOf_num hl ht).trans h0)]
  rw [newBlocks_singleton, hnum, if_pos ((hblock₁ k).trans hblock),
    if_neg fun hc => ha0 (hind₁.symm.trans hc.2)]

/-- Mapping the indirect block and then the entry. -/
theorem Sound.mapped_fresh (h : Sound s) (hl : s.Loaded ip) (ht : (s.inode ip).d.itype ≠ 0)
    (hk : ¬k < NDIRECT) (hk' : k - NDIRECT < NINDIRECT) {a : ℕ} (hfree : s.free = a :: rest)
    (h0 : (s.inode ip).d.addr Dinode.indirect = 0) {s₁ : Vol τ}
    (hs₁ : ((s.alloc a).modDinode ip fun d => d.setAddr Dinode.indirect a) = s₁) {c : ℕ}
    (hm : Mapped ip k s₁ c s') : Mapped ip k s c s' := by
  have hlen := hm.enough
  rw [h.newBlocks_withIndirect hl ht hk hk' hfree h0 hs₁,
    (h.withIndirect hl ht hfree h0 hs₁).2.1] at hlen
  obtain ⟨b, rest', rfl⟩ := exists_cons_of_length_pos hlen
  exact h.mapped_both hl ht hk hk' hfree h0 hs₁ hm

theorem allocated_subset_touched (s : Vol τ) (i : ℕ) (K : List ℕ) {b : ℕ}
    (hb : b ∈ s.allocated i K) : b ∈ s.touched i K ∧ bblock b s.sb ∈ s.touched i K := by
  simp only [touched, Finset.mem_union, mem_toFinset, Finset.mem_image]
  exact ⟨Or.inl (Or.inl hb), Or.inl (Or.inr ⟨b, hb, rfl⟩)⟩

theorem indirectOf_mem_touched {i : ℕ} {K : List ℕ} (h : s.AddsEntry i K)
    (h0 : s.indirectOf i ≠ 0) : s.indirectOf i ∈ s.touched i K := by
  rw [touched, if_pos ⟨h, h0⟩]
  exact Finset.mem_union_right _ (Finset.mem_singleton_self _)

theorem mem_touched {i : ℕ} {K : List ℕ} {x : ℕ} : x ∈ s.touched i K ↔
    x ∈ s.allocated i K ∨ (∃ b ∈ s.allocated i K, bblock b s.sb = x) ∨
      (s.AddsEntry i K ∧ s.indirectOf i ≠ 0 ∧ x = s.indirectOf i) := by
  have hind : x ∈ (if s.AddsEntry i K ∧ s.indirectOf i ≠ 0 then {s.indirectOf i} else ∅ :
      Finset ℕ) ↔ s.AddsEntry i K ∧ s.indirectOf i ≠ 0 ∧ x = s.indirectOf i := by
    split_ifs with h
    · rw [Finset.mem_singleton]
      exact ⟨fun hx => ⟨h.1, h.2, hx⟩, fun hx => hx.2.2⟩
    · exact iff_of_false (Finset.notMem_empty x) fun hx => h ⟨hx.1, hx.2.1⟩
  rw [touched, Finset.mem_union, Finset.mem_union, mem_toFinset, Finset.mem_image, or_assoc, hind]
  simp only [mem_toFinset]

theorem allocated_of_cons {i : ℕ} {K : List ℕ} {n : ℕ} (hnew : s.newBlocks i K = n + 1)
    (hfree : s.free = b :: rest) : s.allocated i K = b :: rest.take n := by
  rw [allocated, hnew, hfree, take_succ_cons]

/-- Mapping an entry once the indirect block is there. -/
theorem wp_entryOf (h : Sound s) (hl : s.Loaded ip) (ht : (s.inode ip).d.itype ≠ 0)
    (hidle : ∀ x, s.held x = none) (hk : ¬k < NDIRECT) (hk' : k - NDIRECT < NINDIRECT)
    (hspare : s.Spare E (s.newBlocks (s.num ip) [k])) (hroom : s.log.RoomOr E F)
    (hF : s.touched (s.num ip) [k] ⊆ F) {a : ℕ} (ha : (s.inode ip).d.addr Dinode.indirect = a)
    (ha0 : a ≠ 0) :
    (entryOf me a (k - NDIRECT)).wp E (fun b s' => Mapped ip k s b s' ∧ s'.log.RoomOr E F) s := by
  have hind : s.indirectOf (s.num ip) = a := (h.indirectOf_num hl ht).trans ha
  have hblock : s.blockAt (s.num ip) k = (s.blk a).word (k - NDIRECT) := by
    rw [h.blockAt_of_le hl ht hk hk', hind, if_neg ha0]
  by_cases h0 : (s.blk a).word (k - NDIRECT) = 0
  · have hadds := (addsEntry_singleton s (s.num ip) k).2 ⟨Nat.not_lt.1 hk, hblock.trans h0⟩
    have hnew : s.newBlocks (s.num ip) [k] = 1 := by
      rw [newBlocks_singleton, if_pos (hblock.trans h0),
        if_neg fun hc => ha0 (hind.symm.trans hc.2)]
    have hFb : ∀ b rest, s.free = b :: rest → bblock b s.sb ∈ F ∧ b ∈ F := by
      intro b rest hbr
      have hmem : b ∈ s.allocated (s.num ip) [k] :=
        allocated_of_cons hnew hbr ▸ mem_cons_self
      obtain ⟨hF₂, hF₁⟩ := allocated_subset_touched s _ _ hmem
      exact ⟨hF hF₁, hF hF₂⟩
    have hFa : a ∈ F := hind ▸ hF (indirectOf_mem_touched hadds (hind.symm ▸ ha0))
    refine wp_entryOf_of_zero h hidle hroom (hnew ▸ hspare) hFb
      (h.marked_indirect hl ht ha ha0) h0 fun b rest hbr => ?_
    obtain ⟨hF₁, hF₂⟩ := hFb b rest hbr
    exact ⟨h.mapped_entry hl ht hk hk' hbr ha ha0 h0, (room_alloc hroom hF₁ hF₂).recorded hFa⟩
  · apply wp_entryOf_of_ne (hidle a) h0
    exact ⟨h.mapped_self hblock h0 fun _ => hind.symm ▸ ha0, hroom⟩

theorem wp_bmap_direct (h : Sound s) (hl : s.Loaded ip) (ht : (s.inode ip).d.itype ≠ 0)
    (hidle : ∀ x, s.held x = none) (hkd : k < NDIRECT)
    (hspare : s.Spare E (s.newBlocks (s.num ip) [k])) (hroom : s.log.RoomOr E F)
    (hF : s.touched (s.num ip) [k] ⊆ F) :
    (blockOf me ip ⟨k, Nat.lt_succ_of_lt hkd⟩).wp E
      (fun b s' => Mapped ip k s b s' ∧ s'.log.RoomOr E F) s := by
  have hcalm : s.Calm := fun x hx => absurd (hidle x) hx
  have hblock := h.blockAt_of_lt hl ht hkd
  by_cases h0 : (s.inode ip).d.addr ⟨k, Nat.lt_succ_of_lt hkd⟩ = 0
  · have hnew : s.newBlocks (s.num ip) [k] = 1 := by
      rw [newBlocks_singleton, if_pos (hblock.trans h0),
        if_neg fun hc => absurd hkd (Nat.not_lt.2 hc.1)]
    have hFb : ∀ b rest, s.free = b :: rest → bblock b s.sb ∈ F ∧ b ∈ F := by
      intro b rest hbr
      have hmem : b ∈ s.allocated (s.num ip) [k] :=
        allocated_of_cons hnew hbr ▸ mem_cons_self
      obtain ⟨hF₂, hF₁⟩ := allocated_subset_touched s _ _ hmem
      exact ⟨hF hF₁, hF hF₂⟩
    refine wp_blockOf_of_zero h hcalm hroom (hnew ▸ hspare) (fun b rest hbr => (hFb b rest hbr).1)
      h0 fun b rest hbr => ?_
    obtain ⟨hF₁, hF₂⟩ := hFb b rest hbr
    exact ⟨h.mapped_addr hl ht hkd hbr (hblock.trans h0), room_alloc hroom hF₁ hF₂⟩
  · rw [wp_blockOf_of_ne h0]
    exact ⟨h.mapped_self hblock h0 fun hle => absurd hkd (Nat.not_lt.2 hle), hroom⟩

/-- An entry of an indirect block that is missing itself. -/
theorem wp_bmap_fresh (h : Sound s) (hl : s.Loaded ip) (ht : (s.inode ip).d.itype ≠ 0)
    (hidle : ∀ x, s.held x = none) (hkd : ¬k < NDIRECT) (hk' : k - NDIRECT < NINDIRECT)
    (hspare : s.Spare E (s.newBlocks (s.num ip) [k])) (hroom : s.log.RoomOr E F)
    (hF : s.touched (s.num ip) [k] ⊆ F) (h0 : (s.inode ip).d.addr Dinode.indirect = 0) :
    (blockOf me ip Dinode.indirect).wp E (fun a s' => (entryOf me a (k - NDIRECT)).wp E
      (fun b s' => Mapped ip k s b s' ∧ s'.log.RoomOr E F) s') s := by
  have hcalm : s.Calm := fun x hx => absurd (hidle x) hx
  have hind : s.indirectOf (s.num ip) = 0 := (h.indirectOf_num hl ht).trans h0
  have hblock : s.blockAt (s.num ip) k = 0 := by rw [h.blockAt_of_le hl ht hkd hk', if_pos hind]
  have hnew : s.newBlocks (s.num ip) [k] = 2 := by
    rw [newBlocks_singleton, if_pos hblock, if_pos ⟨Nat.not_lt.1 hkd, hind⟩]
  have hFa : ∀ a rest, s.free = a :: rest → bblock a s.sb ∈ F ∧ a ∈ F := by
    intro a rest hbr
    have hmem : a ∈ s.allocated (s.num ip) [k] := allocated_of_cons hnew hbr ▸ mem_cons_self
    obtain ⟨hF₂, hF₁⟩ := allocated_subset_touched s _ _ hmem
    exact ⟨hF hF₁, hF hF₂⟩
  rw [hnew] at hspare
  refine wp_blockOf_of_zero h hcalm hroom (hspare.mono one_le_two)
    (fun a rest hbr => (hFa a rest hbr).1) h0 fun a rest hbr => ?_
  have ha : a ∈ s.free := hbr ▸ mem_cons_self
  have ha0 : a ≠ 0 := Nat.ne_of_gt (Nat.lt_of_succ_lt (h.one_lt_data (h.free_data ha)
    (mem_free.1 ha).1))
  have hgrown := h.grown_addr hl ht ha h0
  have hroom₁ : ((s.alloc a).modDinode ip fun d => d.setAddr Dinode.indirect a).log.RoomOr E F :=
    room_alloc hroom (hFa a rest hbr).1 (hFa a rest hbr).2
  have haddr : (((s.alloc a).modDinode ip fun d => d.setAddr Dinode.indirect a).inode ip).d.addr
      Dinode.indirect = a := by
    rw [inode_modDinode_self]
    exact Dinode.addr_setAddr_self _ _ (lt_trans (mem_free.1 ha).1 h.wf.size_lt)
  generalize hs₁ : ((s.alloc a).modDinode ip fun d => d.setAddr Dinode.indirect a) = s₁
    at hgrown hroom₁ haddr
  obtain ⟨hind₁, hfree₁, -⟩ := h.withIndirect hl ht hbr h0 hs₁
  have hnew₁ := h.newBlocks_withIndirect hl ht hkd hk' hbr h0 hs₁
  have hspare₁ : s₁.Spare E (s₁.newBlocks (s₁.num ip) [k]) := by
    refine hspare.imp_left fun hle => ?_
    rw [hbr, length_cons] at hle
    rw [hnew₁, hfree₁]
    omega
  have hF₁ : s₁.touched (s₁.num ip) [k] ⊆ F := by
    intro x hx
    rw [mem_touched, hgrown.num, hind₁, hgrown.sb, allocated, ← hgrown.num, hnew₁, hfree₁] at hx
    have hsub : ∀ y ∈ rest.take 1, y ∈ s.allocated (s.num ip) [k] := fun y hy => by
      rw [allocated_of_cons hnew hbr]
      exact mem_cons_of_mem a hy
    rcases hx with hx | ⟨y, hy, rfl⟩ | ⟨-, -, rfl⟩
    · exact hF (allocated_subset_touched s _ _ (hsub x hx)).1
    · exact hF (allocated_subset_touched s _ _ (hsub y hy)).2
    · exact (hFa x rest hbr).2
  refine wp_mono (wp_entryOf hgrown.sound (hgrown.loaded hl) (hgrown.itype ▸ ht)
    (fun x => by rw [hgrown.held]; exact hidle x) hkd hk' hspare₁ hroom₁ hF₁ haddr ha0) ?_
  rintro c s' ⟨hm, hr⟩
  exact ⟨h.mapped_fresh hl ht hkd hk' hbr h0 hs₁ hm, hr⟩

/-- **`bmap` returns the block at an index, adding what is missing.** -/
theorem wp_bmap (h : Sound s) (hl : s.Loaded ip) (ht : (s.inode ip).d.itype ≠ 0)
    (hidle : ∀ x, s.held x = none) (hk : k < MAXFILE)
    (hspare : s.Spare E (s.newBlocks (s.num ip) [k])) (hroom : s.log.RoomOr E F)
    (hF : s.touched (s.num ip) [k] ⊆ F) :
    (bmap me ip k).wp E (fun b s' => Mapped ip k s b s' ∧ s'.log.RoomOr E F) s := by
  by_cases hkd : k < NDIRECT
  · rw [bmap, dif_pos hkd]
    exact wp_bmap_direct h hl ht hidle hkd hspare hroom hF
  · have hk' : k - NDIRECT < NINDIRECT := by
      have hmax : MAXFILE = NDIRECT + NINDIRECT := rfl
      omega
    rw [bmap, dif_neg hkd, if_pos hk', bind_eq, wp_bind]
    by_cases h0 : (s.inode ip).d.addr Dinode.indirect = 0
    · exact wp_bmap_fresh h hl ht hidle hkd hk' hspare hroom hF h0
    · rw [wp_blockOf_of_ne h0]
      exact wp_entryOf h hl ht hidle hkd hk' hspare hroom hF rfl h0

end Cases

end Vol

end Xv6.Fs
