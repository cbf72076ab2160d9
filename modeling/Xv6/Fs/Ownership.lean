import Xv6.Lib.Listing
import Xv6.Fs.Vol

/-!
# Which inode owns which block

An inode lists its blocks in its address fields and, through the last of them, in
its indirect block.  `Vol.refs` is that listing for the whole volume, read off the
copy of each inode that counts: the valid entry of the inode cache if there is
one, the copy on disk otherwise.  `Sound` is the consistency of a volume at rest:
the free map marks every metadata block and every listed block, and no block is
listed twice.

The changes the code makes to a volume each come with the lemma that they keep
`Sound`: `Sound.write`, `Sound.mark`, `Sound.unmark`, `Sound.setAddr`,
`Sound.clearAddr`, `Sound.setEntry`, `Sound.setFields`, `Sound.writeBack`.
-/

namespace Xv6.Fs

open Lib

/-! ## The regions of a volume -/

namespace Superblock

/-- The first data block: the data blocks are the last `nblocks` of the volume. -/
def dataStart (sb : Superblock) : ℕ := sb.size - sb.nblocks

/-- The regions follow each other: superblock, log, inodes, free map, data. -/
structure WF (sb : Superblock) : Prop where
  /-- Block numbers fit their 32 bits. -/
  size_lt : sb.size < 2 ^ 32
  /-- The log comes after the superblock. -/
  super_lt : 1 < sb.logstart
  /-- The inodes come after the log. -/
  log_le : sb.logstart + sb.nlog ≤ sb.inodestart
  /-- The free map comes after the inodes. -/
  inode_le : sb.inodestart ≤ sb.bmapstart
  /-- Every inode lies before the free map. -/
  inode_lt : ∀ i, i < sb.ninodes → iblock i sb < sb.bmapstart
  /-- The data come after the free map. -/
  bmap_lt : ∀ b, b < sb.size → bblock b sb < sb.dataStart

variable {sb : Superblock}

theorem dataStart_le (sb : Superblock) : sb.dataStart ≤ sb.size := Nat.sub_le _ _

theorem le_bblock (b : ℕ) (sb : Superblock) : sb.bmapstart ≤ bblock b sb := Nat.le_add_left _ _

theorem le_iblock (i : ℕ) (sb : Superblock) : sb.inodestart ≤ iblock i sb := Nat.le_add_left _ _

theorem WF.one_lt_iblock (h : sb.WF) (i : ℕ) : 1 < iblock i sb := by
  have h1 := h.super_lt
  have h2 := h.log_le
  have h3 := le_iblock i sb
  omega

theorem WF.iblock_ne_bblock (h : sb.WF) {i : ℕ} (hi : i < sb.ninodes) (b : ℕ) :
    iblock i sb ≠ bblock b sb := by
  have h1 := h.inode_lt i hi
  have h2 := le_bblock b sb
  omega

/-- A volume with blocks has a free map, hence metadata before the data. -/
theorem WF.bmapstart_lt (h : sb.WF) (hsize : 0 < sb.size) : sb.bmapstart < sb.dataStart :=
  lt_of_le_of_lt (le_bblock 0 sb) (h.bmap_lt 0 hsize)

theorem bblock_eq_iff {b c : ℕ} {sb : Superblock} :
    bblock b sb = bblock c sb ↔ b / BPB = c / BPB := by
  rw [bblock, bblock]
  omega

/-- Within one free-map block, the bit tells the block. -/
theorem mod_eq_iff_of_bblock_eq {b c : ℕ} {sb : Superblock} (h : bblock b sb = bblock c sb) :
    b % BPB = c % BPB ↔ b = c := by
  constructor
  · intro hmod
    rw [← Nat.div_add_mod b BPB, bblock_eq_iff.1 h, hmod, Nat.div_add_mod]
  · rintro rfl
    rfl

theorem iblock_eq_iff {i j : ℕ} {sb : Superblock} :
    iblock i sb = iblock j sb ↔ i / IPB = j / IPB := by
  rw [iblock, iblock]
  omega

end Superblock

/-! ## Places of an inode -/

/-- Where an inode lists a block: an address field or an entry of the indirect block. -/
inductive Place where
  /-- Address field `j`. -/
  | addr (j : Fin (NDIRECT + 1))
  /-- Entry `k` of the indirect block. -/
  | entry (k : Fin NINDIRECT)
  deriving DecidableEq

/-- The block listed at a place, 0 for none. -/
def Place.of (blk : ℕ → Block) (d : Dinode) : Place → ℕ
  | addr j => d.addr j
  | entry k => if d.addr Dinode.indirect = 0 then 0 else (blk (d.addr Dinode.indirect)).word k

/-- Only the indirect block's contents matter. -/
theorem Place.of_congr {blk blk' : ℕ → Block} {d : Dinode}
    (h : d.addr Dinode.indirect ≠ 0 → blk' (d.addr Dinode.indirect) = blk (d.addr Dinode.indirect))
    (p : Place) : p.of blk' d = p.of blk d := by
  cases p with
  | addr j => rfl
  | entry k =>
    simp only [Place.of]
    split
    · rfl
    · rename_i hne
      rw [h hne]

namespace Vol

variable {τ : Type} {s : Vol τ}

/-! ## The listing of a volume -/

/-- The free-map bit of a block. -/
def bit (s : Vol τ) (b : ℕ) : Bool := (s.blk (bblock b s.sb)).bit (b % BPB)

/-- The inode on disk. -/
def disk (s : Vol τ) (i : ℕ) : Dinode := dinodeAt (s.blk (iblock i s.sb)) (i % IPB)

/-- The valid entry of the inode cache for an inode. -/
def cached (s : Vol τ) (i : ℕ) : Option (Fin NINODE) :=
  (List.finRange NINODE).find? fun ip =>
    decide (0 < (s.inode ip).ref) && (s.inode ip).valid && (s.inode ip).inum == i

/-- The copy of an inode that counts. -/
def dinode (s : Vol τ) (i : ℕ) : Dinode :=
  match s.cached i with
  | some ip => (s.inode ip).d
  | none => s.disk i

/-- Inode `i` exists and is in use. -/
def InUse (s : Vol τ) (i : ℕ) : Prop := i < s.sb.ninodes ∧ (s.dinode i).itype ≠ 0

instance (s : Vol τ) (i : ℕ) : Decidable (s.InUse i) :=
  inferInstanceAs (Decidable (_ ∧ _))

/-- The block each place of each inode in use lists. -/
def refs (s : Vol τ) (k : ℕ × Place) : ℕ :=
  if s.InUse k.1 then k.2.of s.blk (s.dinode k.1) else 0

/-- A data block marked in the free map. -/
def Marked (s : Vol τ) (b : ℕ) : Prop :=
  s.sb.dataStart ≤ b ∧ b < s.sb.size ∧ s.bit b = true

/-- No two entries of the inode cache in use are for one inode. -/
def Distinct (s : Vol τ) : Prop :=
  ∀ ip jp, 0 < (s.inode ip).ref → 0 < (s.inode jp).ref →
    (s.inode ip).inum = (s.inode jp).inum → ip = jp

/-- A consistent volume. -/
structure Sound (s : Vol τ) : Prop where
  /-- The regions are in order. -/
  wf : s.sb.WF
  /-- The superblock in memory is the one on disk. -/
  super : Superblock.ofBlock (s.blk 1) = s.sb
  /-- Every metadata block is marked. -/
  meta_marked : ∀ b, b < s.sb.dataStart → s.bit b = true
  /-- Every listed block is a marked data block, and listed once. -/
  refs : Unshared s.Marked s.refs
  /-- No two entries of the inode cache in use are for one inode. -/
  slots : s.Distinct
  /-- The inode cache holds inodes of the volume. -/
  inums : ∀ ip, 0 < (s.inode ip).ref → (s.inode ip).inum < s.sb.ninodes

/-! ## Changing a block -/

theorem blk_setBlk_self (b : ℕ) (d : Block) : (s.setBlk b d).blk b = d := by
  simp [setBlk]

theorem blk_setBlk_of_ne {x b : ℕ} (h : x ≠ b) (d : Block) : (s.setBlk b d).blk x = s.blk x := by
  simp [setBlk, h]

theorem bit_setBlk_of_ne {x b : ℕ} (h : bblock x s.sb ≠ b) (d : Block) :
    (s.setBlk b d).bit x = s.bit x :=
  congrArg (fun e => e.bit (x % BPB)) (blk_setBlk_of_ne h d)

theorem disk_setBlk_of_ne {i b : ℕ} (h : iblock i s.sb ≠ b) (d : Block) :
    (s.setBlk b d).disk i = s.disk i :=
  congrArg (fun e => dinodeAt e (i % IPB)) (blk_setBlk_of_ne h d)

theorem dinode_eq_of_disk_eq {s' : Vol τ} {i : ℕ} (hinode : s'.inode = s.inode)
    (hdisk : s'.disk i = s.disk i) : s'.dinode i = s.dinode i := by
  simp only [dinode, cached, hinode, hdisk]

theorem dinode_setBlk_of_ne {i b : ℕ} (h : iblock i s.sb ≠ b) (d : Block) :
    (s.setBlk b d).dinode i = s.dinode i :=
  dinode_eq_of_disk_eq rfl (disk_setBlk_of_ne h d)

/-- Setting a bit of the free map. -/
theorem bit_mark (s : Vol τ) (b x : ℕ) :
    (s.setBlk (bblock b s.sb) ((s.blk (bblock b s.sb)).setBit (b % BPB))).bit x =
      (decide (x = b) || s.bit x) := by
  have hx : x % BPB < BSIZE * 8 := Nat.mod_lt _ (by decide)
  by_cases h : bblock x s.sb = bblock b s.sb
  · have hiff := Superblock.mod_eq_iff_of_bblock_eq h
    change (((s.setBlk _ _).blk (bblock x s.sb)).bit _) = _
    rw [h, blk_setBlk_self, Block.bit_setBit _ _ hx, bit, h]
    simp only [hiff]
  · rw [bit_setBlk_of_ne h, decide_eq_false (by rintro rfl; exact h rfl), Bool.false_or]

/-- Clearing a bit of the free map. -/
theorem bit_unmark (s : Vol τ) (b x : ℕ) :
    (s.setBlk (bblock b s.sb) ((s.blk (bblock b s.sb)).clearBit (b % BPB))).bit x =
      (!decide (x = b) && s.bit x) := by
  have hx : x % BPB < BSIZE * 8 := Nat.mod_lt _ (by decide)
  by_cases h : bblock x s.sb = bblock b s.sb
  · have hiff := Superblock.mod_eq_iff_of_bblock_eq h
    change (((s.setBlk _ _).blk (bblock x s.sb)).bit _) = _
    rw [h, blk_setBlk_self, Block.bit_clearBit _ _ hx, bit, h]
    simp only [hiff]
  · rw [bit_setBlk_of_ne h, decide_eq_false (by rintro rfl; exact h rfl)]
    rfl

/-- Storing an inode changes that inode on disk only. -/
theorem disk_putDinode (s : Vol τ) (i j : ℕ) (x : Dinode) :
    (s.setBlk (iblock i s.sb) (putDinode (i % IPB) x (s.blk (iblock i s.sb)))).disk j =
      if j = i then x else s.disk j := by
  have hmod : ∀ k, k % IPB < IPB := fun k => Nat.mod_lt _ (by decide)
  by_cases h : iblock j s.sb = iblock i s.sb
  · have hdiv := Superblock.iblock_eq_iff.1 h
    change dinodeAt ((s.setBlk _ _).blk (iblock j s.sb)) _ = _
    rw [h, blk_setBlk_self]
    by_cases hji : j = i
    · subst hji
      rw [if_pos rfl, dinodeAt_putDinode_self (hmod j)]
    · have hne : j % IPB ≠ i % IPB := by
        intro he
        apply hji
        rw [← Nat.div_add_mod j IPB, hdiv, he, Nat.div_add_mod]
      rw [if_neg hji, dinodeAt_putDinode_of_ne (hmod j) hne, disk, h]
  · rw [disk_setBlk_of_ne h, if_neg (by rintro rfl; exact h rfl)]

/-- A change to a block that is neither an inode block nor an indirect block leaves
the listing alone. -/
theorem refs_setBlk {b : ℕ} (hib : ∀ i, i < s.sb.ninodes → iblock i s.sb ≠ b)
    (hind : ∀ i, s.refs (i, .addr Dinode.indirect) ≠ b) (d : Block) :
    (s.setBlk b d).refs = s.refs := by
  funext ⟨i, p⟩
  have hd : i < s.sb.ninodes → (s.setBlk b d).dinode i = s.dinode i :=
    fun hi => dinode_setBlk_of_ne (hib i hi) d
  have huse : (s.setBlk b d).InUse i ↔ s.InUse i :=
    and_congr_right fun hi => by rw [hd hi]
  simp only [refs]
  by_cases hu : s.InUse i
  · rw [if_pos (huse.2 hu), if_pos hu, hd hu.1]
    apply Place.of_congr
    intro _
    apply blk_setBlk_of_ne
    have hi := hind i
    rwa [refs, if_pos hu] at hi
  · rw [if_neg (mt huse.1 hu), if_neg hu]

/-! ## Where the blocks of a consistent volume lie -/

theorem refs_of_inUse {i : ℕ} (hu : s.InUse i) (p : Place) :
    s.refs (i, p) = p.of s.blk (s.dinode i) := if_pos hu

theorem refs_of_not_inUse {i : ℕ} (hu : ¬s.InUse i) (p : Place) : s.refs (i, p) = 0 := if_neg hu

namespace Sound

/-- Listed blocks are data blocks. -/
theorem refs_ne_of_lt (h : Sound s) {b : ℕ} (h0 : b ≠ 0) (hb : b < s.sb.dataStart)
    (k : ℕ × Place) : s.refs k ≠ b := by
  intro he
  have hk := (h.refs.good k (he ▸ h0)).1
  omega

theorem iblock_ne_data (h : Sound s) {b : ℕ} (hb : s.sb.dataStart ≤ b) (hs : b < s.sb.size)
    {i : ℕ} (hi : i < s.sb.ninodes) : iblock i s.sb ≠ b := by
  have h1 := h.wf.inode_lt i hi
  have h2 := h.wf.bmapstart_lt (Nat.zero_lt_of_lt hs)
  omega

theorem bblock_ne_data (h : Sound s) {b : ℕ} (hb : s.sb.dataStart ≤ b) {x : ℕ}
    (hx : x < s.sb.size) : bblock x s.sb ≠ b := by
  have h1 := h.wf.bmap_lt x hx
  omega

theorem one_lt_data (h : Sound s) {b : ℕ} (hb : s.sb.dataStart ≤ b) (hs : b < s.sb.size) :
    1 < b := by
  have h1 := h.wf.bmap_lt b hs
  have h2 := h.wf.super_lt
  have h3 := h.wf.log_le
  have h4 := h.wf.inode_le
  have h5 := Superblock.le_bblock b s.sb
  omega

theorem one_lt_bblock (h : Sound s) (b : ℕ) : 1 < bblock b s.sb := by
  have h1 := h.wf.super_lt
  have h2 := h.wf.log_le
  have h3 := h.wf.inode_le
  have h4 := Superblock.le_bblock b s.sb
  omega

/-! ## Changes to blocks keep a volume consistent -/

/-- A change to a block that leaves the listing and the bits that matter alone. -/
theorem setBlk (h : Sound s) {b : ℕ} {d : Block} (h1 : b ≠ 1)
    (hib : ∀ i, i < s.sb.ninodes → iblock i s.sb ≠ b)
    (hind : ∀ i, s.refs (i, .addr Dinode.indirect) ≠ b)
    (hmeta : ∀ x, x < s.sb.dataStart → (s.setBlk b d).bit x = true)
    (hlist : ∀ k, s.refs k ≠ 0 → s.bit (s.refs k) = true → (s.setBlk b d).bit (s.refs k) = true) :
    Sound (s.setBlk b d) where
  wf := h.wf
  super := by
    rw [blk_setBlk_of_ne (Ne.symm h1)]
    exact h.super
  meta_marked := hmeta
  refs := by
    rw [refs_setBlk hib hind]
    exact h.refs.shrink (fun k => Or.inl rfl) fun k hk hm => ⟨hm.1, hm.2.1, hlist k hk hm.2.2⟩
  slots := h.slots
  inums := h.inums

/-- Writing a data block that is nobody's indirect block. -/
theorem write (h : Sound s) {b : ℕ} (hb : s.sb.dataStart ≤ b) (hs : b < s.sb.size)
    (hind : ∀ i, s.refs (i, .addr Dinode.indirect) ≠ b) (d : Block) : Sound (s.setBlk b d) := by
  have hbit : ∀ x, x < s.sb.size → (s.setBlk b d).bit x = s.bit x :=
    fun x hx => bit_setBlk_of_ne (h.bblock_ne_data hb hx) d
  apply h.setBlk (Nat.ne_of_gt (h.one_lt_data hb hs)) (fun i hi => h.iblock_ne_data hb hs hi) hind
  · intro x hx
    rw [hbit x (lt_of_lt_of_le hx s.sb.dataStart_le)]
    exact h.meta_marked x hx
  · intro k hk hm
    rwa [hbit _ (h.refs.good k hk).2.1]

/-- The free map lists no blocks. -/
theorem refs_ne_bblock (h : Sound s) {b : ℕ} (hb : b < s.sb.size) (k : ℕ × Place) :
    s.refs k ≠ bblock b s.sb :=
  h.refs_ne_of_lt (Nat.ne_of_gt (Nat.lt_trans Nat.zero_lt_one (h.one_lt_bblock b)))
    (h.wf.bmap_lt b hb) k

theorem refs_ne_iblock (h : Sound s) {i : ℕ} (hi : i < s.sb.ninodes) (k : ℕ × Place) :
    s.refs k ≠ iblock i s.sb := by
  intro he
  have h1 := h.wf.one_lt_iblock i
  obtain ⟨h2, h3, -⟩ := h.refs.good k (by omega)
  exact h.iblock_ne_data h2 h3 hi he.symm

/-- The listing does not change with the free map. -/
theorem refs_setBlk_bblock (h : Sound s) {b : ℕ} (hb : b < s.sb.size) (d : Block) :
    (s.setBlk (bblock b s.sb) d).refs = s.refs :=
  refs_setBlk (fun _ hi => h.wf.iblock_ne_bblock hi b) (fun _ => h.refs_ne_bblock hb _) d

theorem mark (h : Sound s) {b : ℕ} (hb : b < s.sb.size) :
    Sound (s.setBlk (bblock b s.sb) ((s.blk (bblock b s.sb)).setBit (b % BPB))) := by
  apply h.setBlk (Nat.ne_of_gt (h.one_lt_bblock b)) (fun i hi => h.wf.iblock_ne_bblock hi b)
    (fun i => h.refs_ne_bblock hb _)
  · intro x hx
    rw [bit_mark, h.meta_marked x hx, Bool.or_true]
  · intro k hk hm
    rw [bit_mark, hm, Bool.or_true]

/-- Unmarking a data block that nobody lists. -/
theorem unmark (h : Sound s) {b : ℕ} (hb : s.sb.dataStart ≤ b) (hs : b < s.sb.size)
    (hfree : ∀ k, s.refs k ≠ b) :
    Sound (s.setBlk (bblock b s.sb) ((s.blk (bblock b s.sb)).clearBit (b % BPB))) := by
  apply h.setBlk (Nat.ne_of_gt (h.one_lt_bblock b)) (fun i hi => h.wf.iblock_ne_bblock hi b)
    (fun i => h.refs_ne_bblock hs _)
  · intro x hx
    rw [bit_unmark, h.meta_marked x hx, decide_eq_false (by omega)]
    rfl
  · intro k hk hm
    rw [bit_unmark, hm, decide_eq_false (hfree k)]
    rfl

end Sound

/-! ## Changing an inode in the cache -/

/-- An entry of the inode cache in use with a valid copy. -/
def Loaded (s : Vol τ) (ip : Fin NINODE) : Prop :=
  0 < (s.inode ip).ref ∧ (s.inode ip).valid = true

/-- The inode number of a cache entry. -/
abbrev num (s : Vol τ) (ip : Fin NINODE) : ℕ := (s.inode ip).inum

theorem cached_eq_some {i : ℕ} {ip : Fin NINODE} (h : s.cached i = some ip) :
    s.Loaded ip ∧ s.num ip = i := by
  have hp := List.find?_some h
  simp only [Bool.and_eq_true, decide_eq_true_eq, beq_iff_eq] at hp
  exact ⟨hp.1, hp.2⟩

theorem Distinct.cached_num (h : s.Distinct) {ip : Fin NINODE} (hl : s.Loaded ip) :
    s.cached (s.num ip) = some ip := by
  cases hc : s.cached (s.num ip) with
  | none =>
    have hn := List.find?_eq_none.1 hc ip (List.mem_finRange ip)
    simp [hl.1, hl.2] at hn
  | some jp =>
    obtain ⟨hj, hnum⟩ := cached_eq_some hc
    rw [h jp ip hj.1 hl.1 hnum]

/-- The copy that counts is the one in the cache. -/
theorem Distinct.dinode_num (h : s.Distinct) {ip : Fin NINODE} (hl : s.Loaded ip) :
    s.dinode (s.num ip) = (s.inode ip).d := by
  rw [dinode, h.cached_num hl]

theorem Sound.cached_num (h : Sound s) {ip : Fin NINODE} (hl : s.Loaded ip) :
    s.cached (s.num ip) = some ip := h.slots.cached_num hl

theorem Sound.dinode_num (h : Sound s) {ip : Fin NINODE} (hl : s.Loaded ip) :
    s.dinode (s.num ip) = (s.inode ip).d := h.slots.dinode_num hl

theorem inode_modDinode_self (ip : Fin NINODE) (f : Dinode → Dinode) :
    (s.modDinode ip f).inode ip = { s.inode ip with d := f (s.inode ip).d } := by
  simp [modDinode, modInode]

theorem inode_modDinode_of_ne {ip jp : Fin NINODE} (h : jp ≠ ip) (f : Dinode → Dinode) :
    (s.modDinode ip f).inode jp = s.inode jp := by
  simp [modDinode, modInode, h]

/-- Numbers, reference counts and valid flags stay. -/
theorem modDinode_frame (ip jp : Fin NINODE) (f : Dinode → Dinode) :
    ((s.modDinode ip f).inode jp).inum = (s.inode jp).inum ∧
      ((s.modDinode ip f).inode jp).ref = (s.inode jp).ref ∧
      ((s.modDinode ip f).inode jp).valid = (s.inode jp).valid ∧
      ((s.modDinode ip f).inode jp).lock = (s.inode jp).lock := by
  by_cases h : jp = ip
  · subst h
    rw [inode_modDinode_self]
    exact ⟨rfl, rfl, rfl, rfl⟩
  · rw [inode_modDinode_of_ne h]
    exact ⟨rfl, rfl, rfl, rfl⟩

theorem cached_modDinode (ip : Fin NINODE) (f : Dinode → Dinode) (i : ℕ) :
    (s.modDinode ip f).cached i = s.cached i := by
  have hfun : ∀ jp, (decide (0 < ((s.modDinode ip f).inode jp).ref) &&
      ((s.modDinode ip f).inode jp).valid && ((s.modDinode ip f).inode jp).inum == i) =
      (decide (0 < (s.inode jp).ref) && (s.inode jp).valid && (s.inode jp).inum == i) := by
    intro jp
    obtain ⟨h1, h2, h3, -⟩ := modDinode_frame (s := s) ip jp f
    rw [h1, h2, h3]
  simp only [cached, hfun]

theorem dinode_modDinode_of_ne {ip : Fin NINODE} {i : ℕ} (h : i ≠ s.num ip)
    (f : Dinode → Dinode) : (s.modDinode ip f).dinode i = s.dinode i := by
  rw [dinode, dinode, cached_modDinode]
  cases hc : s.cached i with
  | none => rfl
  | some jp =>
    have hne : jp ≠ ip := by
      rintro rfl
      exact h (cached_eq_some hc).2.symm
    simp only [inode_modDinode_of_ne hne]

theorem Sound.dinode_modDinode_self (h : Sound s) {ip : Fin NINODE} (hl : s.Loaded ip)
    (f : Dinode → Dinode) : (s.modDinode ip f).dinode (s.num ip) = f (s.inode ip).d := by
  rw [dinode, cached_modDinode, h.cached_num hl]
  simp only [inode_modDinode_self]

/-- The other inodes list what they did. -/
theorem refs_modDinode_of_ne {ip : Fin NINODE} {i : ℕ} (h : i ≠ s.num ip) (f : Dinode → Dinode)
    (p : Place) : (s.modDinode ip f).refs (i, p) = s.refs (i, p) := by
  have hd := dinode_modDinode_of_ne h f
  have huse : (s.modDinode ip f).InUse i ↔ s.InUse i := and_congr_right fun _ => by rw [hd]
  by_cases hu : s.InUse i
  · rw [refs_of_inUse (huse.2 hu), refs_of_inUse hu, hd]
    rfl
  · rw [refs_of_not_inUse (mt huse.1 hu), refs_of_not_inUse hu]

/-- The inode in use in a cache entry. -/
theorem Sound.inUse_num (h : Sound s) {ip : Fin NINODE} (hl : s.Loaded ip) :
    s.InUse (s.num ip) ↔ (s.inode ip).d.itype ≠ 0 := by
  rw [InUse, h.dinode_num hl]
  exact and_iff_right (h.inums ip hl.1)

theorem Sound.refs_num (h : Sound s) {ip : Fin NINODE} (hl : s.Loaded ip)
    (ht : (s.inode ip).d.itype ≠ 0) (p : Place) :
    s.refs (s.num ip, p) = p.of s.blk (s.inode ip).d := by
  rw [refs_of_inUse ((h.inUse_num hl).2 ht), h.dinode_num hl]

theorem Sound.refs_modDinode_self (h : Sound s) {ip : Fin NINODE} (hl : s.Loaded ip)
    (f : Dinode → Dinode) (p : Place) : (s.modDinode ip f).refs (s.num ip, p) =
      if (f (s.inode ip).d).itype ≠ 0 then p.of s.blk (f (s.inode ip).d) else 0 := by
  have hd := h.dinode_modDinode_self hl f
  have huse : (s.modDinode ip f).InUse (s.num ip) ↔ (f (s.inode ip).d).itype ≠ 0 := by
    rw [InUse, hd]
    exact and_iff_right (h.inums ip hl.1)
  by_cases hu : (f (s.inode ip).d).itype ≠ 0
  · rw [refs_of_inUse (huse.2 hu), if_pos hu, hd]
    rfl
  · rw [refs_of_not_inUse (mt huse.1 hu), if_neg hu]

/-- A change to a loaded inode that keeps the listing unshared. -/
theorem Sound.modDinode (h : Sound s) (ip : Fin NINODE) (f : Dinode → Dinode)
    (hrefs : Unshared s.Marked (s.modDinode ip f).refs) : Sound (s.modDinode ip f) where
  wf := h.wf
  super := h.super
  meta_marked := h.meta_marked
  refs := hrefs
  slots jp kp hj hk he := by
    obtain ⟨j1, j2, -⟩ := modDinode_frame (s := s) ip jp f
    obtain ⟨k1, k2, -⟩ := modDinode_frame (s := s) ip kp f
    rw [j1, k1] at he
    exact h.slots jp kp (j2 ▸ hj) (k2 ▸ hk) he
  inums jp hj := by
    obtain ⟨j1, j2, -⟩ := modDinode_frame (s := s) ip jp f
    rw [j1]
    exact h.inums jp (j2 ▸ hj)

/-! ## The changes the code makes to an inode -/

/-- A new address, of an empty block where it is the indirect block's, changes that
place only. -/
theorem of_setAddr_of_ne {blk : ℕ → Block} {d : Dinode} {j : Fin (NDIRECT + 1)} {b : ℕ}
    (hb : b < 2 ^ 32) (h0 : d.addr j = 0) (hz : j = Dinode.indirect → blk b = Block.zero)
    {p : Place} (hp : p ≠ .addr j) : p.of blk (d.setAddr j b) = p.of blk d := by
  cases p with
  | addr i => exact Dinode.addr_setAddr_of_ne d (by rintro rfl; exact hp rfl) b
  | entry k =>
    simp only [Place.of]
    by_cases hj : j = Dinode.indirect
    · subst hj
      rw [Dinode.addr_setAddr_self d _ hb, hz rfl, if_pos h0, Block.word_zero, ite_self]
    · rw [Dinode.addr_setAddr_of_ne d (Ne.symm hj)]

/-- A cleared address drops what was listed there or through it. -/
theorem of_clearAddr (blk : ℕ → Block) (d : Dinode) (j : Fin (NDIRECT + 1)) (p : Place) :
    p.of blk (d.setAddr j 0) = p.of blk d ∨ p.of blk (d.setAddr j 0) = 0 := by
  have hself : (d.setAddr j 0).addr j = 0 := Dinode.addr_setAddr_self d j (by decide)
  cases p with
  | addr i =>
    by_cases hi : i = j
    · subst hi
      exact .inr hself
    · exact .inl (Dinode.addr_setAddr_of_ne d hi 0)
  | entry k =>
    by_cases hj : Dinode.indirect = j
    · subst hj
      right
      simp only [Place.of, hself, if_true]
    · left
      simp only [Place.of, Dinode.addr_setAddr_of_ne d hj]

/-- Every place but the new one lists what it did. -/
theorem Sound.refs_setAddr_of_ne (h : Sound s) {ip : Fin NINODE} (hl : s.Loaded ip)
    {j : Fin (NDIRECT + 1)} {b : ℕ} (hb : b < 2 ^ 32) (h0 : (s.inode ip).d.addr j = 0)
    (hz : j = Dinode.indirect → s.blk b = Block.zero) {k : ℕ × Place}
    (hk : k ≠ (s.num ip, .addr j)) : (s.modDinode ip fun d => d.setAddr j b).refs k = s.refs k := by
  obtain ⟨i, p⟩ := k
  by_cases hi : i = s.num ip
  · subst hi
    have hp : p ≠ .addr j := by
      rintro rfl
      exact hk rfl
    rw [h.refs_modDinode_self hl, of_setAddr_of_ne hb h0 hz hp]
    by_cases ht : (s.inode ip).d.itype ≠ 0
    · rw [h.refs_num hl ht]
      exact if_pos ht
    · rw [refs_of_not_inUse (mt (h.inUse_num hl).1 ht)]
      exact if_neg ht
  · exact refs_modDinode_of_ne hi _ p

theorem Sound.refs_setAddr_self (h : Sound s) {ip : Fin NINODE} (hl : s.Loaded ip)
    (ht : (s.inode ip).d.itype ≠ 0) {j : Fin (NDIRECT + 1)} {b : ℕ} (hb : b < 2 ^ 32) :
    (s.modDinode ip fun d => d.setAddr j b).refs (s.num ip, .addr j) = b := by
  rw [h.refs_modDinode_self hl]
  exact (if_pos ht).trans (Dinode.addr_setAddr_self _ j hb)

/-- Listing a fresh block at a place that listed none. -/
theorem Sound.setAddr (h : Sound s) {ip : Fin NINODE} (hl : s.Loaded ip)
    (ht : (s.inode ip).d.itype ≠ 0) {j : Fin (NDIRECT + 1)} {b : ℕ} (hb : s.Marked b)
    (hfresh : ∀ k, s.refs k ≠ b) (h0 : (s.inode ip).d.addr j = 0)
    (hz : j = Dinode.indirect → s.blk b = Block.zero) :
    Sound (s.modDinode ip fun d => d.setAddr j b) := by
  have hb32 : b < 2 ^ 32 := lt_trans hb.2.1 h.wf.size_lt
  have hsame := fun k hk => h.refs_setAddr_of_ne hl hb32 h0 hz (k := k) hk
  have hnew := h.refs_setAddr_self hl ht (j := j) hb32
  apply h.modDinode ip _
  apply h.refs.insert (s.num ip, Place.addr j) (fun k hk => Or.inl (hsame k hk))
  · intro _
    rw [hnew]
    exact hb
  · intro k hk _ he
    rw [hsame k hk, hnew] at he
    exact hfresh k he

/-- A change that lists nothing new. -/
theorem Sound.dropFrom (h : Sound s) {ip : Fin NINODE} (hl : s.Loaded ip) {f : Dinode → Dinode}
    (ht : (f (s.inode ip).d).itype = (s.inode ip).d.itype ∨ (f (s.inode ip).d).itype = 0)
    (hof : ∀ p : Place, p.of s.blk (f (s.inode ip).d) = p.of s.blk (s.inode ip).d ∨
      p.of s.blk (f (s.inode ip).d) = 0) : Sound (s.modDinode ip f) := by
  apply h.modDinode ip f
  apply h.refs.shrink _ fun _ _ hm => hm
  rintro ⟨i, p⟩
  by_cases hi : i = s.num ip
  · subst hi
    rw [h.refs_modDinode_self hl]
    by_cases ht' : (f (s.inode ip).d).itype ≠ 0
    · rw [if_pos ht', h.refs_num hl (ht.resolve_right ht' ▸ ht')]
      exact hof p
    · exact .inr (if_neg ht')
  · exact .inl (refs_modDinode_of_ne hi f p)

theorem Sound.clearAddr (h : Sound s) {ip : Fin NINODE} (hl : s.Loaded ip)
    (j : Fin (NDIRECT + 1)) : Sound (s.modDinode ip fun d => d.setAddr j 0) :=
  h.dropFrom hl (Or.inl rfl) fun p => of_clearAddr s.blk _ j p

/-- Changing other fields than the addresses. -/
theorem Sound.setFields (h : Sound s) {ip : Fin NINODE} (hl : s.Loaded ip) {f : Dinode → Dinode}
    (ht : (f (s.inode ip).d).itype = (s.inode ip).d.itype ∨ (f (s.inode ip).d).itype = 0)
    (ha : (f (s.inode ip).d).addrs = (s.inode ip).d.addrs) : Sound (s.modDinode ip f) := by
  have haddr : ∀ j, (f (s.inode ip).d).addr j = (s.inode ip).d.addr j :=
    fun j => congrArg (fun a => (a j).toNat) ha
  apply h.dropFrom hl ht
  intro p
  left
  cases p <;> simp only [Place.of, haddr]

/-! ## Changing an indirect block -/

section Entry

variable {ip : Fin NINODE} {a b : ℕ} {k : Fin NINDIRECT}

/-- The indirect block is one of the listed blocks. -/
theorem Sound.refs_indirect (h : Sound s) (hl : s.Loaded ip) (ht : (s.inode ip).d.itype ≠ 0)
    (ha : (s.inode ip).d.addr Dinode.indirect = a) :
    s.refs (s.num ip, .addr Dinode.indirect) = a := by
  rw [h.refs_num hl ht, Place.of, ha]

theorem Sound.marked_indirect (h : Sound s) (hl : s.Loaded ip) (ht : (s.inode ip).d.itype ≠ 0)
    (ha : (s.inode ip).d.addr Dinode.indirect = a) (ha0 : a ≠ 0) : s.Marked a := by
  have hak := h.refs_indirect hl ht ha
  exact hak ▸ h.refs.good _ (hak ▸ ha0)

/-- A change to a data block changes no inode. -/
theorem Sound.dinode_setBlk_data (h : Sound s) (hb : s.sb.dataStart ≤ b) (hs : b < s.sb.size)
    (d : Block) {i : ℕ} (hi : i < s.sb.ninodes) : (s.setBlk b d).dinode i = s.dinode i :=
  dinode_setBlk_of_ne (h.iblock_ne_data hb hs hi) d

theorem Sound.inUse_setBlk_data (h : Sound s) (hb : s.sb.dataStart ≤ b) (hs : b < s.sb.size)
    (d : Block) (i : ℕ) : (s.setBlk b d).InUse i ↔ s.InUse i :=
  and_congr_right fun hi => by rw [h.dinode_setBlk_data hb hs d hi]

/-- A new entry leaves the other places, of this inode and of the others, as they were. -/
theorem Sound.refs_setEntry_of_ne (h : Sound s) (hl : s.Loaded ip)
    (ht : (s.inode ip).d.itype ≠ 0) (ha : (s.inode ip).d.addr Dinode.indirect = a) (ha0 : a ≠ 0)
    {k' : ℕ × Place} (hk' : k' ≠ (s.num ip, .entry k)) :
    (s.setBlk a ((s.blk a).setWord k b)).refs k' = s.refs k' := by
  obtain ⟨i, p⟩ := k'
  obtain ⟨hdata, hsize, -⟩ := h.marked_indirect hl ht ha ha0
  have huse := h.inUse_setBlk_data hdata hsize ((s.blk a).setWord k b) i
  by_cases hu : s.InUse i
  · rw [refs_of_inUse (huse.2 hu), refs_of_inUse hu, h.dinode_setBlk_data hdata hsize _ hu.1]
    cases p with
    | addr j => rfl
    | entry e =>
      by_cases hia : (s.dinode i).addr Dinode.indirect = a
      · have hi : i = s.num ip := by
          have hrefs : s.refs (i, .addr Dinode.indirect) = a := by
            rw [refs_of_inUse hu, Place.of, hia]
          exact congrArg Prod.fst
            (h.refs.inj _ _ (hrefs.trans (h.refs_indirect hl ht ha).symm) (hrefs ▸ ha0))
        have hek : (e : ℕ) ≠ k := by
          intro he
          exact hk' (by rw [hi, Fin.ext he])
        simp only [Place.of, hia, blk_setBlk_self]
        rw [Block.word_setWord_of_ne _ e.isLt hek]
      · simp only [Place.of, blk_setBlk_of_ne hia]
  · rw [refs_of_not_inUse (mt huse.1 hu), refs_of_not_inUse hu]

theorem Sound.refs_setEntry_self (h : Sound s) (hl : s.Loaded ip)
    (ht : (s.inode ip).d.itype ≠ 0) (ha : (s.inode ip).d.addr Dinode.indirect = a) (ha0 : a ≠ 0)
    (hb : b < 2 ^ 32) : (s.setBlk a ((s.blk a).setWord k b)).refs (s.num ip, .entry k) = b := by
  obtain ⟨hdata, hsize, -⟩ := h.marked_indirect hl ht ha ha0
  have hu := (h.inUse_num hl).2 ht
  rw [refs_of_inUse ((h.inUse_setBlk_data hdata hsize _ _).2 hu),
    h.dinode_setBlk_data hdata hsize _ hu.1, h.dinode_num hl]
  simp only [Place.of, ha, if_neg ha0, blk_setBlk_self]
  exact Block.word_setWord_self _ k.isLt hb

/-- Listing a fresh block in the indirect block. -/
theorem Sound.setEntry (h : Sound s) (hl : s.Loaded ip) (ht : (s.inode ip).d.itype ≠ 0)
    (ha : (s.inode ip).d.addr Dinode.indirect = a) (ha0 : a ≠ 0) (hb : s.Marked b)
    (hfresh : ∀ k, s.refs k ≠ b) (k : Fin NINDIRECT) :
    Sound (s.setBlk a ((s.blk a).setWord k b)) := by
  obtain ⟨hdata, hsize, -⟩ := h.marked_indirect hl ht ha ha0
  have hb32 : b < 2 ^ 32 := lt_trans hb.2.1 h.wf.size_lt
  have hsame := fun x hx => @Sound.refs_setEntry_of_ne _ _ _ _ b k h hl ht ha ha0 x hx
  have hnew := h.refs_setEntry_self hl ht ha ha0 (k := k) hb32
  have hbit : ∀ x, x < s.sb.size → (s.setBlk a ((s.blk a).setWord k b)).bit x = s.bit x :=
    fun x hx => bit_setBlk_of_ne (h.bblock_ne_data hdata hx) _
  refine
    { wf := h.wf
      super := ?_
      meta_marked := ?_
      refs := ?_
      slots := h.slots
      inums := h.inums }
  · rw [blk_setBlk_of_ne (Nat.ne_of_lt (h.one_lt_data hdata hsize))]
    exact h.super
  · intro x hx
    rw [hbit x (lt_of_lt_of_le hx s.sb.dataStart_le)]
    exact h.meta_marked x hx
  · have hins : Unshared s.Marked (s.setBlk a ((s.blk a).setWord k b)).refs := by
      apply h.refs.insert (s.num ip, Place.entry k) (fun k' hk' => Or.inl (hsame k' hk'))
      · intro _
        rw [hnew]
        exact hb
      · intro k' hk' _ he
        rw [hsame k' hk', hnew] at he
        exact hfresh k' he
    apply hins.shrink (fun k' => Or.inl rfl)
    rintro k' - ⟨h1, h2, h3⟩
    exact ⟨h1, h2, (hbit _ h2).trans h3⟩

end Entry

/-! ## Writing an inode back -/

/-- The copy on disk of a loaded inode does not count. -/
theorem Sound.dinode_writeBack (h : Sound s) {ip : Fin NINODE} (hl : s.Loaded ip) (x : Dinode)
    (i : ℕ) : (s.setBlk (iblock (s.num ip) s.sb)
      (putDinode (s.num ip % IPB) x (s.blk (iblock (s.num ip) s.sb)))).dinode i = s.dinode i := by
  by_cases hi : i = s.num ip
  · subst hi
    have hc := h.cached_num hl
    simp only [dinode, show ∀ d, (s.setBlk (iblock (s.num ip) s.sb) d).cached (s.num ip) =
      s.cached (s.num ip) from fun _ => rfl, hc]
    rfl
  · refine dinode_eq_of_disk_eq (s := s) rfl ?_
    rw [disk_putDinode, if_neg hi]

theorem Sound.refs_writeBack (h : Sound s) {ip : Fin NINODE} (hl : s.Loaded ip) (x : Dinode) :
    (s.setBlk (iblock (s.num ip) s.sb)
      (putDinode (s.num ip % IPB) x (s.blk (iblock (s.num ip) s.sb)))).refs = s.refs := by
  funext ⟨i, p⟩
  have hd := h.dinode_writeBack hl x i
  have huse : (s.setBlk (iblock (s.num ip) s.sb) (putDinode (s.num ip % IPB) x
      (s.blk (iblock (s.num ip) s.sb)))).InUse i ↔ s.InUse i :=
    and_congr_right fun _ => by rw [hd]
  by_cases hu : s.InUse i
  · rw [refs_of_inUse (huse.2 hu), refs_of_inUse hu, hd]
    apply Place.of_congr
    intro _
    apply blk_setBlk_of_ne
    have hne := h.refs_ne_iblock (h.inums ip hl.1) (i, .addr Dinode.indirect)
    rwa [refs_of_inUse hu] at hne
  · rw [refs_of_not_inUse (mt huse.1 hu), refs_of_not_inUse hu]

/-- Writing a loaded inode back, whatever its copy on disk becomes. -/
theorem Sound.writeBack (h : Sound s) {ip : Fin NINODE} (hl : s.Loaded ip) (x : Dinode) :
    Sound (s.setBlk (iblock (s.num ip) s.sb)
      (putDinode (s.num ip % IPB) x (s.blk (iblock (s.num ip) s.sb)))) := by
  have hbit : ∀ y, (s.setBlk (iblock (s.num ip) s.sb)
      (putDinode (s.num ip % IPB) x (s.blk (iblock (s.num ip) s.sb)))).bit y = s.bit y :=
    fun y => bit_setBlk_of_ne (h.wf.iblock_ne_bblock (h.inums ip hl.1) y).symm _
  refine
    { wf := h.wf
      super := ?_
      meta_marked := fun y hy => (hbit y).trans (h.meta_marked y hy)
      refs := ?_
      slots := h.slots
      inums := h.inums }
  · rw [blk_setBlk_of_ne (Nat.ne_of_lt (h.wf.one_lt_iblock _))]
    exact h.super
  · rw [h.refs_writeBack hl x]
    apply h.refs.shrink (fun k => Or.inl rfl)
    rintro k - ⟨h1, h2, h3⟩
    exact ⟨h1, h2, (hbit _).trans h3⟩

/-! ## Storing a new inode -/

theorem Place.of_addr_eq_zero {d : Dinode} (hd : ∀ j, d.addr j = 0) (blk : ℕ → Block) (p : Place) :
    p.of blk d = 0 := by
  cases p with
  | addr j => exact hd j
  | entry k => exact if_pos (hd Dinode.indirect)

/-- The volume once inode `i` on disk is `d`. -/
def stored (s : Vol τ) (i : ℕ) (d : Dinode) : Vol τ :=
  s.setBlk (iblock i s.sb) (putDinode (i % IPB) d (s.blk (iblock i s.sb)))

theorem disk_stored (s : Vol τ) (i j : ℕ) (d : Dinode) :
    (s.stored i d).disk j = if j = i then d else s.disk j := disk_putDinode s i j d

theorem dinode_stored {i : ℕ} (hnone : s.cached i = none) (d : Dinode) (j : ℕ) :
    (s.stored i d).dinode j = if j = i then d else s.dinode j := by
  have hc : (s.stored i d).cached j = s.cached j := rfl
  by_cases hj : j = i
  · subst hj
    rw [dinode, hc, hnone, if_pos rfl]
    exact (disk_stored s j j d).trans (if_pos rfl)
  · rw [if_neg hj]
    refine dinode_eq_of_disk_eq rfl ?_
    rw [disk_stored, if_neg hj]

section Stored

variable {i : ℕ} (h : Sound s) (hlt : iblock i s.sb < s.sb.bmapstart)

include hlt

theorem bit_stored (d : Dinode) (x : ℕ) : (s.stored i d).bit x = s.bit x := by
  refine bit_setBlk_of_ne ?_ _
  have := Superblock.le_bblock x s.sb
  omega

include h

theorem Sound.blk_stored (d : Dinode) (k : ℕ × Place) :
    (s.stored i d).blk (s.refs k) = s.blk (s.refs k) := by
  refine blk_setBlk_of_ne (fun he => ?_) _
  have h1 := h.wf.one_lt_iblock i
  obtain ⟨h2, h3, -⟩ := h.refs.good k (by omega)
  have h4 := h.wf.bmapstart_lt (Nat.zero_lt_of_lt h3)
  omega

theorem Sound.refs_stored (hnone : s.cached i = none) (hfree : ¬s.InUse i) {d : Dinode}
    (hd : ∀ j, d.addr j = 0) : (s.stored i d).refs = s.refs := by
  funext ⟨j, p⟩
  have hdin := dinode_stored hnone d j
  by_cases hj : j = i
  · subst hj
    rw [refs_of_not_inUse hfree, Vol.refs]
    split_ifs
    · rw [hdin, if_pos rfl]
      exact Place.of_addr_eq_zero hd _ p
    · rfl
  · rw [if_neg hj] at hdin
    have huse : (s.stored i d).InUse j ↔ s.InUse j := and_congr_right fun _ => by rw [hdin]
    by_cases hu : s.InUse j
    · rw [refs_of_inUse (huse.2 hu), refs_of_inUse hu, hdin]
      apply Place.of_congr
      intro _
      have := h.blk_stored hlt d (j, .addr Dinode.indirect)
      rwa [refs_of_inUse hu] at this
    · rw [refs_of_not_inUse (mt huse.1 hu), refs_of_not_inUse hu]

/-- Storing an inode that lists nothing where there is none. -/
theorem Sound.stored (hnone : s.cached i = none) (hfree : ¬s.InUse i) {d : Dinode}
    (hd : ∀ j, d.addr j = 0) : Sound (s.stored i d) where
  wf := h.wf
  super := by
    have := blk_setBlk_of_ne (s := s) (Nat.ne_of_lt (h.wf.one_lt_iblock i))
      (putDinode (i % IPB) d (s.blk (iblock i s.sb)))
    rw [Vol.stored, this]
    exact h.super
  meta_marked x hx := (bit_stored hlt d x).trans (h.meta_marked x hx)
  refs := by
    rw [h.refs_stored hlt hnone hfree hd]
    refine h.refs.shrink (fun _ => Or.inl rfl) ?_
    rintro k - ⟨h1, h2, h3⟩
    exact ⟨h1, h2, (bit_stored hlt d _).trans h3⟩
  slots := h.slots
  inums := h.inums

end Stored

end Vol

end Xv6.Fs
