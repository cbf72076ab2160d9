import Xv6.Lib.Fallible
import Xv6.Mkfs.Tool
import Xv6.Fs.InodeOps

/-!
# The image as the kernel sees it

`mkfs` allocates blocks by counting and writes the free map last.  Read with the
free map it would write now, an unfinished image is a consistent volume
(`Tool.vol`), and what `mkfs` does to the image is what the kernel does to a
volume: `target` maps a block as `bmap` does, taking the first free block, and a
pass of `iappend` is a pass of `writei`.

* `target_mapped` — a block mapped by `mkfs` is mapped as by the kernel.
* `appendLoop_written` — the loop of `iappend` is the loop of `writei`.
* `iappend_appended` — `iappend` puts the bytes at the end of the file and leaves
  every other file alone.
-/

namespace Xv6.Mkfs

open Lib Fs Fs.Vol List Function

/-! ## The layout -/

/-- The superblock `mkfs` writes. -/
def layout : Superblock := Tool.new.sb

theorem layout_wf : layout.WF where
  size_lt := by decide
  super_lt := by decide
  log_le := by decide
  inode_le := by decide
  inode_lt i hi := by
    change i < 200 at hi
    change i / 8 + 32 < 58
    omega
  bmap_lt b hb := by
    change b < 2000 at hb
    change b / 4096 + 58 < 59
    omega

theorem bblock_layout {b : ℕ} (hb : b < FSSIZE) : bblock b layout = 58 := by
  change b / 4096 + 58 = 58
  change b < 2000 at hb
  omega

theorem bit_bitmap (n : ℕ) {j : ℕ} (hj : j < BSIZE * 8) :
    (Tool.bitmap n).bit j = decide (j < n) := by
  induction n with
  | zero => simp [Tool.bitmap]
  | succ n ih =>
    rw [Tool.bitmap, range_succ, foldl_append, foldl_cons, foldl_nil, Block.bit_setBit _ _ hj]
    change (decide (j = n) || (Tool.bitmap n).bit j) = _
    rw [ih, ← Bool.decide_or]
    exact decide_eq_decide.2 (by omega)

theorem bitmap_succ (n : ℕ) : Tool.bitmap (n + 1) = (Tool.bitmap n).setBit n := by
  rw [Tool.bitmap, range_succ, foldl_append]
  rfl

/-! ## The image as a volume -/

namespace Tool

/-- The image, with the free map `mkfs` would write now. -/
def shown (m : Tool) (b : ℕ) : Block :=
  if b = m.sb.bmapstart then bitmap m.freeBlock else m.sector b

/-- An entry of the inode cache not in use. -/
def noInode : Inode Unit := { inum := 0, ref := 0, lock := none, valid := false, d := Dinode.zero }

/-- The volume of an unfinished image, nothing of it in memory. -/
def vol (m : Tool) : Vol Unit where
  blk := m.shown
  held _ := none
  log :=
    { start := m.sb.logstart, size := m.sb.nlog, outstanding := 0, committing := false,
      block := [] }
  sb := m.sb
  inode _ := noInode
  file _ := { ftype := .none, readable := false, writable := false, ip := 0, off := 0 }
  passed := []

/-- What holds of the image file at any time. -/
structure Plain (m : Tool) : Prop where
  /-- It has its full length. -/
  nsec : m.nsec = FSSIZE
  /-- The superblock is the one computed at the start. -/
  sb : m.sb = layout
  /-- Data blocks are allocated. -/
  le : nMeta ≤ m.freeBlock
  /-- None past the end. -/
  le_size : m.freeBlock ≤ FSSIZE
  /-- The blocks not yet allocated are zero. -/
  fresh : ∀ b, m.freeBlock ≤ b → m.sector b = Block.zero

variable {m : Tool} {s : Vol Unit} {b : ℕ} {d : Block}

theorem Plain.shown_eq (h : m.Plain) (x : ℕ) :
    m.shown x = if x = 58 then bitmap m.freeBlock else m.sector x := by
  rw [shown, h.sb]
  rfl

theorem Plain.readSector (h : m.Plain) {sec : ℕ} {buf : Block} :
    m.readSector sec = .ok buf ↔ sec < FSSIZE ∧ buf = m.sector sec := by
  rw [Tool.readSector, h.nsec]
  split_ifs with hlt
  · simp only [Except.ok.injEq, hlt, true_and]
    exact eq_comm
  · simp [hlt]

theorem lt_of_readSector {sec : ℕ} {buf : Block} (h : m.readSector sec = .ok buf) :
    sec < m.nsec := by
  by_contra hge
  rw [readSector, if_neg hge] at h
  cases h

/-- Writing a block that is neither the free map's nor unallocated. -/
theorem Plain.writeSector (h : m.Plain) (hb : b < m.freeBlock) (d : Block) :
    (m.writeSector b d).Plain where
  nsec := by
    have h1 := h.nsec
    have h2 := h.le_size
    change max m.nsec (b + 1) = _
    omega
  sb := h.sb
  le := h.le
  le_size := h.le_size
  fresh x hx := by
    change m.freeBlock ≤ x at hx
    rw [← h.fresh x hx]
    exact update_of_ne (by omega) _ _

theorem Plain.shown_writeSector (h : m.Plain) (hb : b ≠ 58) (d : Block) :
    (m.writeSector b d).shown = update m.shown b d := by
  funext x
  have hsb : (m.writeSector b d).sb.bmapstart = 58 := congrArg Superblock.bmapstart h.sb
  rw [shown, hsb]
  by_cases hx : x = b
  · subst hx
    rw [if_neg hb, update_self]
    exact update_self x d m.sector
  · rw [update_of_ne hx, h.shown_eq]
    split_ifs
    · rfl
    · exact update_of_ne hx d m.sector

theorem Plain.bump (h : m.Plain) (hlt : m.freeBlock < FSSIZE) : m.bump.Plain where
  nsec := h.nsec
  sb := h.sb
  le := Nat.le_succ_of_le h.le
  le_size := hlt
  fresh x hx := h.fresh x (Nat.le_of_succ_le hx)

/-- The volume shows the image: same blocks, same superblock. -/
structure Shows (m : Tool) (s : Vol Unit) : Prop where
  /-- The image is as it should be. -/
  plain : m.Plain
  /-- Same blocks. -/
  blk : s.blk = m.shown
  /-- Same superblock. -/
  sb : s.sb = layout
  /-- The volume is consistent. -/
  sound : Sound s
  /-- Every block allocated is listed. -/
  covered : ∀ b, nMeta ≤ b → b < m.freeBlock → ∃ k, s.refs k = b

theorem Shows.bit (h : m.Shows s) {x : ℕ} (hx : x < FSSIZE) :
    s.bit x = decide (x < m.freeBlock) := by
  have hmod : x % BPB = x := Nat.mod_eq_of_lt (show x < 4096 by change x < 2000 at hx; omega)
  rw [Vol.bit, h.sb, bblock_layout hx, h.blk, h.plain.shown_eq, if_pos rfl, hmod,
    bit_bitmap _ (show x < 512 * 8 by change x < 2000 at hx; omega)]

/-- The free blocks are those not yet allocated. -/
theorem Shows.free (h : m.Shows s) : s.free = List.range' m.freeBlock (FSSIZE - m.freeBlock) := by
  have hle := h.plain.le_size
  have hsize : s.sb.size = m.freeBlock + (FSSIZE - m.freeBlock) := by
    rw [h.sb]
    change 2000 = m.freeBlock + (2000 - m.freeBlock)
    change m.freeBlock ≤ 2000 at hle
    omega
  rw [Vol.free, hsize, range_add, filter_append]
  have hno : (List.range m.freeBlock).filter (fun b => !s.bit b) = [] := by
    rw [filter_eq_nil_iff]
    intro x hx
    have hx' := mem_range.1 hx
    rw [h.bit (lt_of_lt_of_le hx' hle), decide_eq_true hx']
    decide
  have hall : ((List.range (FSSIZE - m.freeBlock)).map (m.freeBlock + ·)).filter
      (fun b => !s.bit b) = (List.range (FSSIZE - m.freeBlock)).map (m.freeBlock + ·) := by
    rw [filter_eq_self]
    intro x hx
    obtain ⟨k, hk, rfl⟩ := mem_map.1 hx
    have hk' := mem_range.1 hk
    rw [h.bit (by omega), decide_eq_false (by omega)]
    rfl
  rw [hno, hall, nil_append, range'_eq_map_range]

theorem Shows.free_cons (h : m.Shows s) (hlt : m.freeBlock < FSSIZE) :
    s.free = m.freeBlock :: List.range' (m.freeBlock + 1) (FSSIZE - m.freeBlock - 1) := by
  rw [h.free, show FSSIZE - m.freeBlock = FSSIZE - m.freeBlock - 1 + 1 by omega, range'_succ]
  rfl

/-! ## Mapping a block -/

section Target

variable {ip : Fin NINODE} {m' : Tool} {s' : Vol Unit} {j : Fin (NDIRECT + 1)} {k a : ℕ}

/-- Listed blocks of the volume are sectors that hold data. -/
theorem Shows.of_listed (h : m.Shows s) {p : ℕ × Place} (hp : s.refs p = b) (h0 : b ≠ 0) :
    nMeta ≤ b ∧ b < m.freeBlock ∧ s.blk b = m.sector b := by
  obtain ⟨h1, h2, h3⟩ := h.sound.refs.good p (hp.symm ▸ h0)
  rw [hp, h.sb] at h1 h2
  rw [hp, h.bit h2, decide_eq_true_eq] at h3
  refine ⟨h1, h3, ?_⟩
  change 59 ≤ b at h1
  rw [h.blk, h.plain.shown_eq, if_neg (by omega)]

/-- Taking the next block is what `balloc` does. -/
theorem Shows.blk_alloc (h : m.Shows s) (hlt : m.freeBlock < FSSIZE) :
    (s.alloc m.freeBlock).blk = m.bump.shown := by
  have hle : 59 ≤ m.freeBlock := h.plain.le
  have hlt' : m.freeBlock < 2000 := hlt
  have hmod : m.freeBlock % BPB = m.freeBlock := Nat.mod_eq_of_lt (show _ < 4096 by omega)
  have hbb : bblock m.freeBlock s.sb = 58 := by rw [h.sb, bblock_layout hlt]
  funext x
  have hbump : m.bump.shown x = if x = 58 then bitmap (m.freeBlock + 1) else m.sector x :=
    (h.plain.bump hlt).shown_eq x
  rw [hbump]
  by_cases hx : x = m.freeBlock
  · rw [hx, blk_alloc_self, if_neg (by omega), h.plain.fresh _ (le_refl _)]
  · by_cases hx58 : x = 58
    · rw [alloc, blk_put_of_ne hx, hbb, hx58, blk_put_self, if_pos rfl, h.blk, h.plain.shown_eq,
        if_pos rfl, hmod, bitmap_succ]
    · rw [blk_alloc_of_ne hx (by rw [hbb]; exact hx58), h.blk, h.plain.shown_eq, if_neg hx58,
        if_neg hx58]

/-- What was listed stays listed. -/
theorem Shows.covered_of_grown (h : m.Shows s) (hg : Grown ip s s') {b : ℕ} (hb : nMeta ≤ b)
    (hlt : b < m.freeBlock) : ∃ p, s'.refs p = b := by
  obtain ⟨⟨i, p⟩, hp⟩ := h.covered b hb hlt
  refine ⟨(i, p), ?_⟩
  by_cases hi : i = s.num ip
  · subst hi
    rw [hg.keep p (by change 59 ≤ b at hb; omega), hp]
  · rw [hg.others i p hi, hp]

/-- A block allocated for an address field. -/
theorem Shows.addr (h : m.Shows s) (hl : s.Loaded ip) (ht : (s.inode ip).d.itype ≠ 0)
    (hlt : m.freeBlock < FSSIZE) (h0 : (s.inode ip).d.addr j = 0) :
    m.bump.Shows ((s.alloc m.freeBlock).modDinode ip fun d => d.setAddr j m.freeBlock) := by
  have hmem : m.freeBlock ∈ s.free := h.free_cons hlt ▸ mem_cons_self
  have hg := h.sound.grown_addr hl ht hmem h0
  have h32 : m.freeBlock < 2 ^ 32 := lt_trans (mem_free.1 hmem).1 h.sound.wf.size_lt
  refine ⟨h.plain.bump hlt, h.blk_alloc hlt, h.sb, hg.sound, fun b hb hb' => ?_⟩
  by_cases he : b = m.freeBlock
  · subst he
    exact ⟨_, (h.sound.alloc hmem).refs_setAddr_self hl ht h32⟩
  · exact h.covered_of_grown hg hb (by change b < m.freeBlock + 1 at hb'; omega)

/-- A block allocated for an entry of the indirect block. -/
theorem Shows.entry (h : m.Shows s) (hl : s.Loaded ip) (ht : (s.inode ip).d.itype ≠ 0)
    (hlt : m.freeBlock < FSSIZE) (hk : ¬k < NDIRECT) (hk' : k - NDIRECT < NINDIRECT)
    (ha : (s.inode ip).d.addr Dinode.indirect = a) (ha0 : a ≠ 0)
    (h0 : (s.blk a).word (k - NDIRECT) = 0) :
    (m.bump.writeSector a ((s.blk a).setWord (k - NDIRECT) m.freeBlock)).Shows
      ((s.alloc m.freeBlock).put a (((s.alloc m.freeBlock).blk a).setWord (k - NDIRECT)
        m.freeBlock)) := by
  have hfree := h.free_cons hlt
  have hmem : m.freeBlock ∈ s.free := hfree ▸ mem_cons_self
  obtain ⟨ha1, ha2, ha3⟩ := h.of_listed (h.sound.refs_indirect hl ht ha) ha0
  have hmap := h.sound.mapped_entry hl ht hk hk' hfree ha ha0 h0
  have hblk : (s.alloc m.freeBlock).blk a = s.blk a := by
    apply blk_alloc_of_ne (by omega)
    rw [h.sb, bblock_layout hlt]
    change 59 ≤ a at ha1
    omega
  refine ⟨(h.plain.bump hlt).writeSector (Nat.lt_succ_of_lt ha2) _, ?_, h.sb, hmap.grown.sound,
    fun b hb hb' => ?_⟩
  · rw [(h.plain.bump hlt).shown_writeSector (by change 59 ≤ a at ha1; omega), hblk,
      ← h.blk_alloc hlt]
    rfl
  · by_cases he : b = m.freeBlock
    · have hat := hmap.blockAt_eq
      rw [blockAt_eq_refs (Place.nth_of_le hk hk')] at hat
      exact ⟨_, hat.trans he.symm⟩
    · exact h.covered_of_grown hmap.grown hb (by change b < m.freeBlock + 1 at hb'; omega)

/-- An entry of the indirect block. -/
theorem Shows.targetEntry (h : m.Shows s) (hl : s.Loaded ip) (ht : (s.inode ip).d.itype ≠ 0)
    (hk : ¬k < NDIRECT) (hk' : k - NDIRECT < NINDIRECT)
    (ha : (s.inode ip).d.addr Dinode.indirect = a) (ha0 : a ≠ 0)
    (hok : m.targetEntry a (k - NDIRECT) = .ok (b, m')) (hb : b < FSSIZE) :
    ∃ s', Mapped ip k s b s' ∧ m'.Shows s' ∧ s'.inode = s.inode := by
  have hind : s.indirectOf (s.num ip) = a := (h.sound.indirectOf_num hl ht).trans ha
  obtain ⟨ha1, ha2, ha3⟩ := h.of_listed hind ha0
  have hread : m.readSector a = .ok (s.blk a) :=
    h.plain.readSector.2 ⟨lt_of_lt_of_le ha2 h.plain.le_size, ha3⟩
  rw [Tool.targetEntry, hread] at hok
  change (if (s.blk a).word (k - NDIRECT) = 0 then _ else _ : Except Failure (ℕ × Tool)) = _ at hok
  split_ifs at hok with h0
  · cases hok
    refine ⟨_, h.sound.mapped_entry hl ht hk hk' (h.free_cons hb) ha ha0 h0,
      h.entry hl ht hb hk hk' ha ha0 h0, rfl⟩
  · cases hok
    refine ⟨s, h.sound.mapped_self ?_ h0 fun _ => hind.symm ▸ ha0, h, rfl⟩
    rw [h.sound.blockAt_of_le hl ht hk hk', hind, if_neg ha0]

/-- A fresh address, or the one that is there. -/
theorem Shows.mapAddr (h : m.Shows s)
    {r : Dinode × Tool} (hr : m.mapAddr (s.inode ip).d j = r) :
    r = ((s.inode ip).d, m) ∧ (s.inode ip).d.addr j ≠ 0 ∨
      (s.inode ip).d.addr j = 0 ∧ r.1.addr j = m.freeBlock ∧ r.2 = m.bump ∧
        r.1 = (s.inode ip).d.setAddr j m.freeBlock := by
  rw [Tool.mapAddr] at hr
  split_ifs at hr with h0
  · have h32 : m.freeBlock < 2 ^ 32 := lt_of_le_of_lt h.plain.le_size (by decide)
    refine .inr ⟨h0, ?_, ?_, ?_⟩
    · rw [← hr]
      exact Dinode.addr_setAddr_self _ _ h32
    · rw [← hr]
    · rw [← hr]
  · exact .inl ⟨hr.symm, h0⟩

/-- **`mkfs` maps a block as the kernel does.** -/
theorem Shows.target (h : m.Shows s) (hl : s.Loaded ip) {din' : Dinode}
    (ht : (s.inode ip).d.itype ≠ 0) (hk : k < MAXFILE)
    (hok : m.target (s.inode ip).d k = .ok (b, din', m')) (hb : b < FSSIZE) :
    ∃ s', Mapped ip k s b s' ∧ m'.Shows s' ∧ (s'.inode ip).d = din' := by
  rw [Tool.target] at hok
  split_ifs at hok with hkd
  · have hblock := h.sound.blockAt_of_lt hl ht hkd
    generalize hr : m.mapAddr (s.inode ip).d ⟨k, Nat.lt_succ_of_lt hkd⟩ = r at hok
    cases hok
    rcases h.mapAddr hr with ⟨he, h0⟩ | ⟨h0, h1, h2, h3⟩
    · cases he
      exact ⟨s, h.sound.mapped_self hblock h0 fun hle => absurd hkd (Nat.not_lt.2 hle), h, rfl⟩
    · dsimp only at h1 h2 h3
      subst h2
      rw [h1] at hb ⊢
      refine ⟨_, h.sound.mapped_addr hl ht hkd (h.free_cons hb) (hblock.trans h0),
        h.addr hl ht hb h0, ?_⟩
      rw [inode_modDinode_self]
      exact h3.symm
  · have hk' : k - NDIRECT < NINDIRECT := by
      have hmax : MAXFILE = NDIRECT + NINDIRECT := rfl
      omega
    generalize hr : m.mapAddr (s.inode ip).d Dinode.indirect = r at hok
    obtain ⟨e, he, hok⟩ := bind_eq_ok.1 hok
    cases hok
    rcases h.mapAddr hr with ⟨hrr, h0⟩ | ⟨h0, h1, h2, h3⟩
    · cases hrr
      obtain ⟨s', h4, h5, h6⟩ := h.targetEntry hl ht hkd hk' rfl h0 he hb
      exact ⟨s', h4, h5, by rw [h6]⟩
    · rw [h1, h2] at he
      -- the read of the indirect block has succeeded, so there was a block for it
      have hlt : m.freeBlock < FSSIZE := by
        obtain ⟨buf, hbuf, -⟩ := bind_eq_ok.1 he
        exact lt_of_lt_of_eq (lt_of_readSector hbuf) h.plain.nsec
      have hmem : m.freeBlock ∈ s.free := h.free_cons hlt ▸ mem_cons_self
      have hg := h.sound.grown_addr hl ht hmem h0
      have hsh := h.addr hl ht hlt h0
      have hd : (((s.alloc m.freeBlock).modDinode ip fun d =>
          d.setAddr Dinode.indirect m.freeBlock).inode ip).d = r.1 := by
        rw [inode_modDinode_self]
        exact h3.symm
      have hpos : m.freeBlock ≠ 0 := by
        have hle : 59 ≤ m.freeBlock := h.plain.le
        omega
      generalize hs₁ : ((s.alloc m.freeBlock).modDinode ip fun d =>
        d.setAddr Dinode.indirect m.freeBlock) = s₁ at hg hsh hd
      obtain ⟨s', h4, h5, h6⟩ := hsh.targetEntry (hg.loaded hl) (hg.itype ▸ ht) hkd hk'
        (by rw [hd, h1]) hpos he hb
      exact ⟨s', h.sound.mapped_fresh hl ht hkd hk' (h.free_cons hlt) h0 hs₁ h4, h5, by rw [h6, hd]⟩

/-- With blocks to spare, mapping succeeds. -/
theorem Shows.target_ok (h : m.Shows s) (hl : s.Loaded ip) (ht : (s.inode ip).d.itype ≠ 0)
    (hk : k < MAXFILE) (hnew : s.newBlocks (s.num ip) [k] ≤ s.free.length) :
    ∃ b din' m', m.target (s.inode ip).d k = .ok (b, din', m') ∧ b < FSSIZE := by
  have hlen : s.free.length = FSSIZE - m.freeBlock := by rw [h.free, length_range']
  rw [hlen, newBlocks_singleton] at hnew
  by_cases hkd : k < NDIRECT
  · have hblock := h.sound.blockAt_of_lt hl ht hkd
    generalize hr : m.mapAddr (s.inode ip).d ⟨k, Nat.lt_succ_of_lt hkd⟩ = r
    refine ⟨_, _, _, by rw [Tool.target, dif_pos hkd, hr]; rfl, ?_⟩
    rcases h.mapAddr hr with ⟨he, h0⟩ | ⟨h0, h1, -, -⟩
    · rw [← hblock] at h0
      obtain ⟨-, hlt, -⟩ := h.of_listed (blockAt_eq_refs (Place.nth_of_lt hkd) (s.num ip)).symm h0
      rw [he, ← hblock]
      exact lt_of_lt_of_le hlt h.plain.le_size
    · rw [h1]
      rw [if_pos (hblock.trans h0)] at hnew
      omega
  · have hk' : k - NDIRECT < NINDIRECT := by
      have hmax : MAXFILE = NDIRECT + NINDIRECT := rfl
      omega
    have hblock := h.sound.blockAt_of_le hl ht hkd hk'
    have hindd := h.sound.indirectOf_num hl ht
    -- the read of the indirect block succeeds, whether it is old or new
    have hentry : ∀ (t : Tool) (a : ℕ), t.nsec = FSSIZE → a < FSSIZE →
        ((t.sector a).word (k - NDIRECT) = 0 → t.freeBlock < FSSIZE) →
        ((t.sector a).word (k - NDIRECT) ≠ 0 → (t.sector a).word (k - NDIRECT) < FSSIZE) →
        ∃ e, t.targetEntry a (k - NDIRECT) = .ok e ∧ e.1 < FSSIZE := by
      intro t a hsec ha h1 h2
      rw [Tool.targetEntry, readSector, hsec, if_pos ha]
      change ∃ e, (if (t.sector a).word (k - NDIRECT) = 0 then _ else _ :
        Except Failure (ℕ × Tool)) = .ok e ∧ _
      split_ifs with h0
      · exact ⟨_, rfl, h1 h0⟩
      · exact ⟨_, rfl, h2 h0⟩
    generalize hr : m.mapAddr (s.inode ip).d Dinode.indirect = r
    suffices hsuff : ∃ e, r.2.targetEntry (r.1.addr Dinode.indirect) (k - NDIRECT) = .ok e ∧
        e.1 < FSSIZE by
      obtain ⟨e, he, hlt⟩ := hsuff
      refine ⟨e.1, r.1, e.2, ?_, hlt⟩
      rw [Tool.target, dif_neg hkd, hr]
      exact bind_eq_ok.2 ⟨e, he, rfl⟩
    rcases h.mapAddr hr with ⟨he, h0⟩ | ⟨h0, h1, h2, -⟩
    · obtain ⟨-, ha2, ha3⟩ := h.of_listed hindd h0
      have hword : s.blockAt (s.num ip) k =
          (m.sector ((s.inode ip).d.addr Dinode.indirect)).word (k - NDIRECT) := by
        rw [hblock, hindd, if_neg h0, ha3]
      rw [he]
      refine hentry m _ h.plain.nsec (lt_of_lt_of_le ha2 h.plain.le_size) (fun hz => ?_)
        fun hz => ?_
      · rw [if_pos (hword.trans hz)] at hnew
        omega
      · rw [← hword] at hz ⊢
        obtain ⟨-, hlt, -⟩ :=
          h.of_listed (blockAt_eq_refs (Place.nth_of_le hkd hk') (s.num ip)).symm hz
        exact lt_of_lt_of_le hlt h.plain.le_size
    · have hind : s.indirectOf (s.num ip) = 0 := hindd.trans h0
      rw [if_pos (by rw [hblock, if_pos hind]), if_pos ⟨Nat.not_lt.1 hkd, hind⟩] at hnew
      have hzero : m.sector m.freeBlock = Block.zero := h.plain.fresh _ (le_refl _)
      rw [h1, h2]
      refine hentry m.bump _ h.plain.nsec (by omega) (fun _ => ?_) fun hz => ?_
      · change m.freeBlock + 1 < FSSIZE
        omega
      · change (m.sector m.freeBlock).word _ ≠ 0 at hz
        rw [hzero, Block.word_zero] at hz
        exact absurd rfl hz

end Target

/-! ## Appending -/

section Append

variable {ip : Fin NINODE} {m' : Tool} {k : ℕ} {data : List UInt8}

theorem listed_of_blockAt {i : ℕ} (hb : s.blockAt i k = b) (h0 : b ≠ 0) : ∃ p, s.refs p = b := by
  cases hp : Place.nth k with
  | none => exact absurd (hb ▸ blockAt_of_none hp i) h0
  | some p => exact ⟨_, (blockAt_eq_refs hp i).symm.trans hb⟩

theorem Shows.put (h : m.Shows s) (hb : s.blockAt (s.num ip) k = b) (h0 : b ≠ 0) (d : Block) :
    (m.writeSector b d).Shows (s.put b d) := by
  obtain ⟨hfr, hrefs, -, -, -⟩ := h.sound.framed_write ip hb h0 d
  obtain ⟨p, hp⟩ := listed_of_blockAt hb h0
  obtain ⟨h1, h2, -⟩ := h.of_listed hp h0
  refine ⟨h.plain.writeSector h2 d, ?_, h.sb, hfr.sound, fun x hx hx' => ?_⟩
  · rw [h.plain.shown_writeSector (by change 59 ≤ b at h1; omega), ← h.blk]
    rfl
  · rw [hrefs]
    exact h.covered x hx hx'

theorem nsec_targetEntry {a i : ℕ} (hok : m.targetEntry a i = .ok (b, m')) : m'.nsec = m.nsec := by
  obtain ⟨buf, hread, hok⟩ := bind_eq_ok.1 hok
  have ha := lt_of_readSector hread
  split_ifs at hok
  · cases hok
    exact Nat.max_eq_left ha
  · cases hok
    rfl

/-- The image keeps its length whatever block is mapped. -/
theorem nsec_target {din din' : Dinode} (hok : m.target din k = .ok (b, din', m')) :
    m'.nsec = m.nsec := by
  have hmap : ∀ j r, m.mapAddr din j = r → r.2.nsec = m.nsec := by
    rintro j r rfl
    rw [Tool.mapAddr]
    split_ifs <;> rfl
  rw [Tool.target] at hok
  split_ifs at hok with hk
  · generalize hr : m.mapAddr din ⟨k, Nat.lt_succ_of_lt hk⟩ = r at hok
    cases hok
    exact hmap _ _ hr
  · generalize hr : m.mapAddr din Dinode.indirect = r at hok
    obtain ⟨e, he, hok⟩ := bind_eq_ok.1 hok
    cases hok
    exact (nsec_targetEntry he).trans (hmap _ _ hr)

/-- **The loop of `iappend` is the loop of `writei`.** -/
theorem Shows.appendLoop (h : m.Shows s) (hl : s.Loaded ip) (ht : (s.inode ip).d.itype ≠ 0)
    (fuel off p : ℕ) (hfuel : data.length - p ≤ fuel) {r : Tool × Dinode × ℕ}
    (hok : appendLoop data fuel m (s.inode ip).d off p = .ok r) :
    ∃ s', Written ip (data.getD · 0) p off (data.length - p) s s' ∧ r.1.Shows s' ∧
      (s'.inode ip).d = r.2.1 ∧ r.2.2 = off + (data.length - p) ∧
      r.2.2 ≤ max off (MAXFILE * BSIZE) := by
  induction fuel generalizing m s off p with
  | zero =>
    cases hok
    rw [Nat.le_zero.1 hfuel]
    exact ⟨s, h.sound.written_nil _ p off, h, rfl, rfl, le_max_left _ _⟩
  | succ fuel ih =>
    rw [Tool.appendLoop] at hok
    split_ifs at hok with hlt hmax
    · obtain ⟨⟨b, din, m₁⟩, htarget, hok⟩ := bind_eq_ok.1 hok
      obtain ⟨buf, hread, hok⟩ := bind_eq_ok.1 hok
      have hb : b < FSSIZE := by
        rw [← h.plain.nsec, ← nsec_target htarget]
        exact lt_of_readSector hread
      obtain ⟨s₁, hmap, hsh, hd⟩ := h.target hl ht (Nat.not_le.1 hmax) htarget hb
      obtain ⟨-, hbuf⟩ := hsh.plain.readSector.1 hread
      have hb₁ : s₁.blockAt (s₁.num ip) (off / BSIZE) = b := hmap.grown.num.symm ▸ hmap.blockAt_eq
      have hblk : s₁.blk b = buf := by
        obtain ⟨p, hp⟩ := listed_of_blockAt hb₁ hmap.ne_zero
        rw [hbuf, (hsh.of_listed hp hmap.ne_zero).2.2]
      have hoff : off - off / BSIZE * BSIZE = off % BSIZE := by
        rw [Nat.mod_def, Nat.mul_comm]
      have hn1 : (off / BSIZE + 1) * BSIZE - off = BSIZE - off % BSIZE := by
        have hdiv := Nat.div_add_mod' off BSIZE
        rw [Nat.add_mul, Nat.one_mul]
        omega
      have hmod : off % BSIZE < BSIZE := Nat.mod_lt _ (by decide)
      simp only [hoff, hn1] at hok
      generalize hn : min (data.length - p) (BSIZE - off % BSIZE) = n at hok
      generalize hdd : (buf.splice (off % BSIZE) n fun i => data.getD (p + i) 0) = d at hok
      have hput := hsh.put hb₁ hmap.ne_zero d
      have hloaded : (s₁.put b d).Loaded ip := hmap.grown.loaded hl
      have htype : ((s₁.put b d).inode ip).d.itype ≠ 0 := by
        change (s₁.inode ip).d.itype ≠ 0
        rw [hmap.grown.itype]
        exact ht
      rw [← hd] at hok
      obtain ⟨s', hw, h1, h2, h3, h4⟩ := ih hput hloaded htype (off + n) (p + n) (by omega) hok
      have hrest : data.length - (p + n) = data.length - p - n := by omega
      rw [hrest] at hw h3
      refine ⟨s', hw.cons (by omega) hn.symm hmap ?_, h1, h2, by omega, ?_⟩
      · rw [hblk, hdd]
      · have hdiv := Nat.div_add_mod' off BSIZE
        have hle : (off / BSIZE + 1) * BSIZE ≤ MAXFILE * BSIZE :=
          Nat.mul_le_mul_right _ (Nat.lt_of_not_le hmax)
        rw [Nat.add_mul, Nat.one_mul] at hle
        omega
    · cases hok
      rw [show data.length - p = 0 by omega]
      exact ⟨s, h.sound.written_nil _ p off, h, rfl, rfl, le_max_left _ _⟩

/-- With blocks to spare and room in the file, the loop succeeds. -/
theorem Shows.appendLoop_ok (h : m.Shows s) (hl : s.Loaded ip) (ht : (s.inode ip).d.itype ≠ 0)
    (fuel off p : ℕ) (hend : p < data.length → off + (data.length - p) ≤ MAXFILE * BSIZE)
    (hfree : s.newBlocks (s.num ip) (span off (data.length - p)) ≤ s.free.length) :
    ∃ r, Tool.appendLoop data fuel m (s.inode ip).d off p = .ok r := by
  induction fuel generalizing m s off p with
  | zero => exact ⟨_, rfl⟩
  | succ fuel ih =>
    rw [Tool.appendLoop]
    by_cases hlt : p < data.length
    · have hdiv := Nat.div_add_mod' off BSIZE
      have hmod : off % BSIZE < BSIZE := Nat.mod_lt _ (by decide)
      have hmax : off / BSIZE < MAXFILE := by
        apply Nat.div_lt_of_lt_mul
        have hle := hend hlt
        rw [Nat.mul_comm]
        omega
      have hn1 : (off / BSIZE + 1) * BSIZE - off = BSIZE - off % BSIZE := by
        rw [Nat.add_mul, Nat.one_mul]
        omega
      rw [if_pos hlt, if_neg (Nat.not_le.2 hmax)]
      simp only [hn1]
      generalize hn : min (data.length - p) (BSIZE - off % BSIZE) = n
      have hspan := span_cons (Nat.sub_pos_of_lt hlt) hn.symm
      have hK : off / BSIZE ∉ span (off + n) (data.length - p - n) :=
        (nodup_cons.1 (hspan ▸ nodup_span off (data.length - p))).1
      rw [hspan] at hfree
      obtain ⟨b, din, m₁, htarget, hb⟩ :=
        h.target_ok hl ht hmax (le_trans (newBlocks_singleton_le s _ _ _) hfree)
      obtain ⟨s₁, hmap, hsh, hd⟩ := h.target hl ht hmax htarget hb
      have hb₁ : s₁.blockAt (s₁.num ip) (off / BSIZE) = b := hmap.grown.num.symm ▸ hmap.blockAt_eq
      have hread : m₁.readSector b = .ok (m₁.sector b) := hsh.plain.readSector.2 ⟨hb, rfl⟩
      generalize hdd : ((m₁.sector b).splice (off - off / BSIZE * BSIZE) n fun i =>
        data.getD (p + i) 0) = d
      obtain ⟨-, hrefs, hfr, -, -⟩ := hsh.sound.framed_write ip hb₁ hmap.ne_zero d
      have hrest : data.length - (p + n) = data.length - p - n := by omega
      obtain ⟨r, hr⟩ := ih (s := s₁.put b d) (hsh.put hb₁ hmap.ne_zero d) (hmap.grown.loaded hl)
        (by change (s₁.inode ip).d.itype ≠ 0; rw [hmap.grown.itype]; exact ht) (off + n) (p + n)
        (fun hlt' => by have := hend hlt; omega) (by
          have hnum : (s₁.put b d).num ip = s.num ip := hmap.grown.num
          rw [hmap.newBlocks_cons hK] at hfree
          rw [hrest, hnum, newBlocks_congr hrefs, hfr, hmap.free, length_drop]
          omega)
      refine ⟨r, bind_eq_ok.2 ⟨(b, din, m₁), htarget, bind_eq_ok.2 ⟨m₁.sector b, hread, ?_⟩⟩⟩
      dsimp only
      rw [hdd, ← hd]
      exact hr
    · exact ⟨_, if_neg hlt⟩

end Append

/-! ## An inode in memory and back -/

/-- The volume with inode `i` in memory, in the first entry of the inode cache. -/
def withInode (s : Vol Unit) (i : ℕ) : Vol Unit :=
  s.modInode 0 fun _ => { inum := i, ref := 1, lock := none, valid := true, d := s.dinode i }

/-- The volume with nothing in the inode cache. -/
def withoutInodes (s : Vol Unit) : Vol Unit := { s with inode := fun _ => noInode }

theorem cached_withoutInodes (s : Vol Unit) (i : ℕ) : (withoutInodes s).cached i = none :=
  cached_eq_none fun _ hj => absurd hj.1 (Nat.lt_irrefl 0)

theorem dinode_withoutInodes (s : Vol Unit) (i : ℕ) : (withoutInodes s).dinode i = s.disk i := by
  rw [dinode, cached_withoutInodes]
  rfl

theorem inode_withInode (s : Vol Unit) (i : ℕ) : (withInode s i).inode 0 =
    { inum := i, ref := 1, lock := none, valid := true, d := s.dinode i } :=
  inode_modInode_self 0 _

/-- Bringing an inode into an empty cache. -/
theorem sound_withInode (h : Sound s) (hnone : ∀ jp, (s.inode jp).ref = 0) {i : ℕ}
    (hi : i < s.sb.ninodes) : Sound (withInode s i) ∧ (withInode s i).refs = s.refs ∧
      (withInode s i).Loaded 0 ∧ (withInode s i).num 0 = i ∧
      ∀ j, (withInode s i).dinode j = s.dinode j := by
  have hin := inode_withInode s i
  have hl : (withInode s i).Loaded 0 := by
    rw [Loaded, hin]
    exact ⟨Nat.one_pos, rfl⟩
  have hnum : (withInode s i).num 0 = i := by rw [num, hin]
  have honly : ∀ jp, 0 < ((withInode s i).inode jp).ref → jp = 0 := by
    intro jp hj
    by_contra hne
    rw [withInode, inode_modInode_of_ne hne, hnone] at hj
    exact Nat.lt_irrefl 0 hj
  have hdist : (withInode s i).Distinct :=
    fun jp kp hj hk _ => (honly jp hj).trans (honly kp hk).symm
  have hd : ∀ j, (withInode s i).dinode j = s.dinode j := by
    intro j
    by_cases hj : j = i
    · have hself := hdist.dinode_num hl
      rw [hnum, hin] at hself
      rw [hj, hself]
    · exact h.slots.dinode_modInode_of_ne hdist
        (fun h0 => absurd (hnone 0) (Nat.ne_of_gt h0)) fun _ => Ne.symm hj
  refine ⟨h.of_dinode rfl rfl (fun j _ => hd j) hdist fun jp hj => ?_,
    refs_congr rfl rfl fun j _ => hd j, hl, hnum, hd⟩
  rw [honly jp hj, hin]
  exact hi

/-- Dropping the inode once it is written back. -/
theorem sound_withoutInodes (h : Sound s) (hd : ∀ j, j < s.sb.ninodes → s.disk j = s.dinode j) :
    Sound (withoutInodes s) ∧ (withoutInodes s).refs = s.refs := by
  have hd' : ∀ j, j < s.sb.ninodes → (withoutInodes s).dinode j = s.dinode j := fun j hj =>
    (dinode_withoutInodes s j).trans (hd j hj)
  refine ⟨h.of_dinode rfl rfl hd' ?_ ?_, refs_congr rfl rfl hd'⟩
  · intro jp kp hj
    exact absurd hj (Nat.lt_irrefl 0)
  · intro jp hj
    exact absurd hj (Nat.lt_irrefl 0)

/-! ## `iappend` -/

/-- `s'` is `s` with bytes appended to inode `i`. -/
structure Appended (i : ℕ) (data : List UInt8) (s s' : Vol Unit) : Prop where
  /-- The other inodes are unchanged. -/
  dinode : ∀ j, j < s.sb.ninodes → j ≠ i → s'.dinode j = s.dinode j
  /-- Their blocks are where they were. -/
  blockAt : ∀ j k, j ≠ i → s'.blockAt j k = s.blockAt j k
  /-- And hold what they did. -/
  fileByte : ∀ j o, j ≠ i → s'.fileByte j o = s.fileByte j o
  /-- Only size and addresses of this one change. -/
  kind : (s'.dinode i).itype = (s.dinode i).itype ∧ (s'.dinode i).nlink = (s.dinode i).nlink
  /-- It has grown. -/
  size : (s'.dinode i).size.toNat = (s.dinode i).size.toNat + data.length
  /-- The bytes are at its end. -/
  bytes : ∀ o, s'.fileByte i o =
    if (s.dinode i).size.toNat ≤ o ∧ o < (s.dinode i).size.toNat + data.length then
      data.getD (o - (s.dinode i).size.toNat) 0
    else s.fileByte i o
  /-- The blocks written are there. -/
  mapped : ∀ k ∈ span (s.dinode i).size.toNat data.length, s'.blockAt i k ≠ 0
  /-- Those there before still are. -/
  kept : ∀ k, s.blockAt i k ≠ 0 → s'.blockAt i k ≠ 0
  /-- The free blocks left. -/
  free : s'.free = s.free.drop (s.newBlocks i (span (s.dinode i).size.toNat data.length))

/-- Two volumes with the same blocks and the same inodes. -/
structure Alike (s t : Vol Unit) : Prop where
  /-- Same blocks. -/
  blk : s.blk = t.blk
  /-- Same superblock. -/
  sb : s.sb = t.sb
  /-- Same inodes, in memory or on disk. -/
  dinode : ∀ j, j < t.sb.ninodes → s.dinode j = t.dinode j

namespace Alike

variable {s t u : Vol Unit}

theorem symm (h : Alike s t) : Alike t s :=
  ⟨h.blk.symm, h.sb.symm, fun j hj => (h.dinode j (h.sb ▸ hj)).symm⟩

theorem trans (h : Alike s t) (h' : Alike t u) : Alike s u :=
  ⟨h.blk.trans h'.blk, h.sb.trans h'.sb,
    fun j hj => (h.dinode j (h'.sb.symm ▸ hj)).trans (h'.dinode j hj)⟩

theorem refs (h : Alike s t) : s.refs = t.refs := refs_congr h.blk h.sb h.dinode

theorem free (h : Alike s t) : s.free = t.free := free_congr h.blk h.sb

theorem blockAt (h : Alike s t) (j k : ℕ) : s.blockAt j k = t.blockAt j k := by
  rw [Vol.blockAt, Vol.blockAt, h.refs]

theorem fileByte (h : Alike s t) (j o : ℕ) : s.fileByte j o = t.fileByte j o := by
  rw [Vol.fileByte, Vol.fileByte, h.blockAt, h.blk]

end Alike

theorem Appended.congr {t t' : Vol Unit} {s' : Vol Unit} {i : ℕ} {data : List UInt8}
    (h : Appended i data s s') (h₁ : Alike s t) (h₂ : Alike s' t') (hsb : s'.sb = s.sb)
    (hi : i < s.sb.ninodes) : Appended i data t t' := by
  have hn : ∀ j, j < s.sb.ninodes → s.dinode j = t.dinode j := fun j hj =>
    h₁.dinode j (h₁.sb ▸ hj)
  have hn' : ∀ j, j < s.sb.ninodes → s'.dinode j = t'.dinode j := fun j hj =>
    h₂.dinode j (h₂.sb ▸ hsb ▸ hj)
  have hnew : t.newBlocks i = s.newBlocks i := funext fun K => newBlocks_congr h₁.refs.symm i K
  refine
    { dinode := fun j hj hji => ?_
      blockAt := fun j k hji => ?_
      fileByte := fun j o hji => ?_
      kind := ?_
      size := ?_
      bytes := fun o => ?_
      mapped := fun k hk => ?_
      kept := fun k hk => ?_
      free := ?_ }
  · rw [← h₁.sb] at hj
    rw [← hn' j hj, ← hn j hj, h.dinode j hj hji]
  · rw [← h₁.blockAt, ← h₂.blockAt, h.blockAt j k hji]
  · rw [← h₁.fileByte, ← h₂.fileByte, h.fileByte j o hji]
  · rw [← hn i hi, ← hn' i hi]
    exact h.kind
  · rw [← hn i hi, ← hn' i hi]
    exact h.size
  · rw [← hn i hi, ← h₁.fileByte, ← h₂.fileByte]
    exact h.bytes o
  · rw [← h₂.blockAt]
    exact h.mapped k (by rw [hn i hi]; exact hk)
  · rw [← h₂.blockAt]
    exact h.kept k (by rw [h₁.blockAt]; exact hk)
  · rw [← h₁.free, ← h₂.free, hnew, ← hn i hi]
    exact h.free

/-- Two volumes with the same blocks and nothing in memory list the same. -/
theorem Shows.vol_of (h : m.Shows s) (hnone : s.inode = fun _ => noInode) :
    m.Shows m.vol ∧ Alike s m.vol := by
  have hsb : (m.vol).sb = s.sb := h.plain.sb.trans h.sb.symm
  have hd : ∀ j, (m.vol).dinode j = s.dinode j := by
    intro j
    refine dinode_eq_of_disk_eq hnone.symm ?_
    rw [disk, disk, hsb, h.blk]
    rfl
  have hrefs : (m.vol).refs = s.refs := refs_congr h.blk.symm hsb fun j _ => hd j
  refine ⟨⟨h.plain, rfl, h.plain.sb, ?_, fun b hb hb' => hrefs ▸ h.covered b hb hb'⟩, h.blk,
    hsb.symm, fun j _ => (hd j).symm⟩
  refine h.sound.of_dinode h.blk.symm hsb (fun j _ => hd j) ?_ ?_
  · intro jp kp hj
    exact absurd hj (Nat.lt_irrefl 0)
  · intro jp hj
    exact absurd hj (Nat.lt_irrefl 0)

variable {m' : Tool} {ip : Fin NINODE} {data : List UInt8} {i : ℕ}

theorem Plain.iblock_lt (h : m.Plain) (hi : i < 208) : m.iblock i < 58 := by
  rw [iblock, h.sb]
  change i / 8 + 32 < 58
  omega

theorem Plain.writeInode_ok (h : m.Plain) (hi : i < 208) (d : Dinode) : m.writeInode i d =
    .ok ({ m with wrote := m.wrote ++ [i] }.writeSector (m.iblock i)
      (putDinode (i % IPB) d (m.sector (m.iblock i)))) := by
  have hlt := h.iblock_lt hi
  have hread : m.readSector (m.iblock i) = .ok (m.sector (m.iblock i)) :=
    h.readSector.2 ⟨Nat.lt_trans hlt (by decide), rfl⟩
  rw [Tool.writeInode, hread]
  rfl

/-- `write_inode` of the inode in memory is `iupdate`. -/
theorem Shows.writeInode (h : m.Shows s) (hl : s.Loaded ip)
    (hok : m.writeInode (s.num ip) (s.inode ip).d = .ok m') : m'.Shows (s.updated ip) := by
  have hi : s.num ip < 200 := lt_of_lt_of_eq (h.sound.inums ip hl.1) (by rw [h.sb]; rfl)
  have hlt := h.plain.iblock_lt (i := s.num ip) (by omega)
  have hib : m.iblock (s.num ip) = Fs.iblock (s.num ip) s.sb := by
    rw [iblock, h.plain.sb, h.sb]
    rfl
  rw [h.plain.writeInode_ok (by omega)] at hok
  cases hok
  obtain ⟨hfr, hrefs, -, -, -⟩ := h.sound.updated hl
  have hpl : ({ m with wrote := m.wrote ++ [s.num ip] } : Tool).Plain :=
    ⟨h.plain.nsec, h.plain.sb, h.plain.le, h.plain.le_size, h.plain.fresh⟩
  refine ⟨hpl.writeSector (lt_of_lt_of_le hlt (Nat.le_of_succ_le h.plain.le)) _, ?_, h.sb,
    hfr.sound, fun b hb hb' => hrefs ▸ h.covered b hb hb'⟩
  rw [hpl.shown_writeSector (Nat.ne_of_lt hlt)]
  change update s.blk _ _ = update m.shown _ _
  rw [h.blk, hib, h.plain.shown_eq, if_neg (hib ▸ Nat.ne_of_lt hlt)]

theorem Shows.resize (h : m.Shows s) (hl : s.Loaded ip) (n : UInt32) :
    m.Shows (s.modDinode ip fun d => { d with size := n }) := by
  obtain ⟨hfr, hrefs⟩ := h.sound.resized hl n
  exact ⟨h.plain, h.blk, h.sb, hfr.sound, fun b hb hb' => hrefs ▸ h.covered b hb hb'⟩

theorem dinode_vol (m : Tool) (j : ℕ) : (m.vol).dinode j = (m.vol).disk j :=
  dinode_withoutInodes m.vol j

/-- The inode as `mkfs` reads it. -/
theorem Plain.readInode (h : m.Plain) (hi : i < 208) : m.readInode i = .ok ((m.vol).disk i) := by
  have hlt := h.iblock_lt hi
  have hread : m.readSector (m.iblock i) = .ok (m.sector (m.iblock i)) :=
    h.readSector.2 ⟨Nat.lt_trans hlt (by decide), rfl⟩
  have hdisk : (m.vol).disk i = dinodeAt (m.sector (m.iblock i)) (i % IPB) := by
    change dinodeAt (m.shown (m.iblock i)) _ = _
    rw [h.shown_eq, if_neg (Nat.ne_of_lt hlt)]
  rw [Tool.readInode, hread, hdisk]
  rfl

/-- `iappend` to the inode in memory. -/
theorem Shows.iappend (h : m.Shows s) (hl : s.Loaded ip) (ht : (s.inode ip).d.itype ≠ 0)
    (hread : m.readInode (s.num ip) = .ok (s.inode ip).d)
    (hok : m.iappend (s.num ip) data = .ok m') :
    ∃ s', m'.Shows s' ∧ Framed ip s s' ∧ s'.disk (s.num ip) = (s'.inode ip).d ∧
      Appended (s.num ip) data s s' := by
  obtain ⟨din₀, hread', hok⟩ := bind_eq_ok.1 hok
  rw [hread] at hread'
  cases hread'
  obtain ⟨⟨m₁, din, off⟩, hloop, hwrite⟩ := bind_eq_ok.1 hok
  obtain ⟨s₁, hw, hsh₁, hd₁, hoff, hle⟩ := h.appendLoop hl ht _ _ 0 (Nat.sub_le _ _) hloop
  dsimp only at hsh₁ hd₁ hoff hle hwrite
  rw [Nat.sub_zero] at hw hoff
  have hoff32 : off < 2 ^ 32 := by
    have hsz := (s.inode ip).d.size.toNat_lt
    have hmax : MAXFILE * BSIZE = 71680 := rfl
    omega
  have hl₁ := hw.framed.loaded hl
  obtain ⟨hfr₂, hrefs₂⟩ := hsh₁.sound.resized hl₁ (UInt32.ofNat off)
  have hsh₂ := hsh₁.resize hl₁ (UInt32.ofNat off)
  have hbyte₂ : ∀ j o, (s₁.modDinode ip fun d => { d with size := UInt32.ofNat off }).fileByte j o =
      s₁.fileByte j o := fun j o => by
    rw [Vol.fileByte, Vol.fileByte, Vol.blockAt, Vol.blockAt, hrefs₂]
    rfl
  have hfree₂ : (s₁.modDinode ip fun d => { d with size := UInt32.ofNat off }).free = s₁.free := rfl
  have hin₂ : ((s₁.modDinode ip fun d => { d with size := UInt32.ofNat off }).inode ip).d =
      { din with size := UInt32.ofNat off } := by
    rw [inode_modDinode_self, ← hd₁]
  generalize (s₁.modDinode ip fun d => { d with size := UInt32.ofNat off }) = s₂ at *
  have hl₂ := hfr₂.loaded hl₁
  have hnum₂ : s₂.num ip = s.num ip := hfr₂.num.trans hw.framed.num
  rw [← hin₂, ← hnum₂] at hwrite
  obtain ⟨hfr₃, hrefs₃, hfree₃, hdisk₃, hbyte₃⟩ := hsh₂.sound.updated hl₂
  have hframe := (hw.framed.trans hfr₂).trans hfr₃
  have hblock : ∀ j k, (s₂.updated ip).blockAt j k = s₁.blockAt j k := fun j k => by
    rw [Vol.blockAt, Vol.blockAt, hrefs₃, hrefs₂]
  have hd₀ := h.sound.dinode_num hl
  have hd₃ : (s₂.updated ip).dinode (s.num ip) = { din with size := UInt32.ofNat off } := by
    rw [← hframe.num, hfr₃.sound.dinode_num (hfr₃.loaded hl₂)]
    exact hin₂
  have hitype : din.itype = (s.inode ip).d.itype ∧ din.nlink = (s.inode ip).d.nlink := by
    obtain ⟨n, a, hin⟩ := hw.framed.inode
    rw [← hd₁, hin]
    exact ⟨rfl, rfl⟩
  rw [hnum₂] at hdisk₃
  refine ⟨s₂.updated ip, hsh₂.writeInode hl₂ hwrite, hframe, hdisk₃,
    { dinode := fun j hj hji => hframe.dinode hji hj
      blockAt := fun j k hji => hframe.blockAt hji k
      fileByte := fun j o hji => hframe.fileByte hji o
      kind := by rw [hd₃, hd₀]; exact hitype
      size := ?_
      bytes := fun o => ?_
      mapped := fun k hk => ?_
      kept := fun k hk => ?_
      free := ?_ }⟩
  · rw [hd₃, hd₀, ← hoff]
    exact UInt32.toNat_ofNat_of_lt' hoff32
  · rw [hbyte₃, hbyte₂, hw.bytes, hd₀, Nat.zero_add]
  · rw [hblock]
    exact hw.mapped k (hd₀ ▸ hk)
  · rw [hblock, hw.kept k hk]
    exact hk
  · rw [hfree₃, hfree₂, hw.free, hd₀]

/-- **`iappend` puts the bytes at the end of the file.** -/
theorem iappend_appended (h : m.Shows m.vol) (hi : i < 200) (ht : ((m.vol).dinode i).itype ≠ 0)
    (hok : m.iappend i data = .ok m') : m'.Shows m'.vol ∧ Appended i data m.vol m'.vol := by
  have hni : i < (m.vol).sb.ninodes := by
    change i < m.sb.ninodes
    rw [h.plain.sb]
    exact hi
  obtain ⟨hs, hrefs, hl, hnum, hd⟩ := sound_withInode h.sound (fun _ => rfl) hni
  have hslot : ((withInode m.vol i).inode 0).d = (m.vol).dinode i := by rw [inode_withInode]
  have halike : Alike (withInode m.vol i) m.vol := ⟨rfl, rfl, fun j _ => hd j⟩
  have hsh : m.Shows (withInode m.vol i) :=
    ⟨h.plain, rfl, h.sb, hs, fun b hb hb' => hrefs ▸ h.covered b hb hb'⟩
  have hread : m.readInode ((withInode m.vol i).num 0) = .ok ((withInode m.vol i).inode 0).d := by
    rw [hnum, hslot, h.plain.readInode (by omega), dinode_vol]
  obtain ⟨s', hsh', hframe, hdisk, happ⟩ :=
    hsh.iappend hl (hslot ▸ ht) hread (by rw [hnum]; exact hok)
  rw [hnum] at hdisk happ
  -- the copy in memory is the copy on disk, so it can be dropped
  have hsync : ∀ j, j < s'.sb.ninodes → s'.disk j = s'.dinode j := by
    intro j hj
    rw [hframe.sb] at hj
    by_cases hji : j = i
    · have hself := hframe.sound.dinode_num (hframe.loaded hl)
      rw [hframe.num, hnum] at hself
      rw [hji, hdisk, hself]
    · rw [hframe.disk j hj (hnum ▸ hji), happ.dinode j hj hji, hd j, dinode_vol]
      rfl
  obtain ⟨hs₃, hrefs₃⟩ := sound_withoutInodes hsh'.sound hsync
  have halike' : Alike s' (withoutInodes s') :=
    ⟨rfl, rfl, fun j hj => ((dinode_withoutInodes s' j).trans (hsync j hj)).symm⟩
  obtain ⟨h1, h2⟩ := Shows.vol_of (m := m') (s := withoutInodes s')
    ⟨hsh'.plain, hsh'.blk, hsh'.sb, hs₃, fun b hb hb' => hrefs₃ ▸ hsh'.covered b hb hb'⟩ rfl
  exact ⟨h1, happ.congr halike (halike'.trans h2) hframe.sb hni⟩

/-- With blocks to spare and room in the file, `iappend` succeeds. -/
theorem iappend_ok (h : m.Shows m.vol) (hi : i < 200) (ht : ((m.vol).dinode i).itype ≠ 0)
    (hend : ((m.vol).dinode i).size.toNat + data.length ≤ MAXFILE * BSIZE)
    (hfree : (m.vol).newBlocks i (span ((m.vol).dinode i).size.toNat data.length) ≤
      (m.vol).free.length) : ∃ m', m.iappend i data = .ok m' := by
  have hni : i < (m.vol).sb.ninodes := by
    change i < m.sb.ninodes
    rw [h.plain.sb]
    exact hi
  obtain ⟨hs, hrefs, hl, hnum, -⟩ := sound_withInode h.sound (fun _ => rfl) hni
  have hslot : ((withInode m.vol i).inode 0).d = (m.vol).dinode i := by rw [inode_withInode]
  have hsh : m.Shows (withInode m.vol i) :=
    ⟨h.plain, rfl, h.sb, hs, fun b hb hb' => hrefs ▸ h.covered b hb hb'⟩
  obtain ⟨⟨m₁, din, off⟩, hloop⟩ := @Shows.appendLoop_ok _ _ _ data hsh hl (hslot ▸ ht) data.length
    ((m.vol).dinode i).size.toNat 0 (fun _ => by rw [Nat.sub_zero]; exact hend)
    (by rw [Nat.sub_zero, hnum, newBlocks_congr hrefs]; exact hfree)
  obtain ⟨s₁, -, hsh₁, -⟩ := hsh.appendLoop hl (hslot ▸ ht) _ _ 0 (Nat.sub_le _ _) hloop
  refine ⟨_, bind_eq_ok.2 ⟨_, h.plain.readInode (by omega), bind_eq_ok.2 ⟨(m₁, din, off), ?_,
    hsh₁.plain.writeInode_ok (by omega) _⟩⟩⟩
  rw [← dinode_vol]
  rw [hslot] at hloop
  exact hloop

/-! ## `ialloc` -/

/-- Storing an inode without blocks where there was none. -/
structure Stored (i : ℕ) (d : Dinode) (s s' : Vol Unit) : Prop where
  /-- It is there. -/
  self : s'.dinode i = d
  /-- The other inodes are unchanged. -/
  dinode : ∀ j, j ≠ i → s'.dinode j = s.dinode j
  /-- Nothing new is listed. -/
  refs : s'.refs = s.refs
  /-- Files keep their bytes. -/
  fileByte : ∀ j o, s'.fileByte j o = s.fileByte j o
  /-- Free blocks stay free. -/
  free : s'.free = s.free

theorem Shows.store (h : m.Shows m.vol) (hi : i < 208)
    (hold : i < 200 → ((m.vol).dinode i).itype = 0) {d : Dinode} (hd : ∀ j, d.addr j = 0)
    (hok : m.writeInode i d = .ok m') : m'.Shows m'.vol ∧ Stored i d m.vol m'.vol := by
  have hlt := h.plain.iblock_lt hi
  rw [h.plain.writeInode_ok hi] at hok
  cases hok
  have hpl : ({ m with wrote := m.wrote ++ [i] } : Tool).Plain :=
    ⟨h.plain.nsec, h.plain.sb, h.plain.le, h.plain.le_size, h.plain.fresh⟩
  generalize hm' : ({ m with wrote := m.wrote ++ [i] } : Tool).writeSector (m.iblock i)
    (putDinode (i % IPB) d (m.sector (m.iblock i))) = m'
  have hpl' : m'.Plain :=
    hm' ▸ hpl.writeSector (lt_of_lt_of_le hlt (Nat.le_of_succ_le h.plain.le)) _
  have hfb : m'.freeBlock = m.freeBlock := by rw [← hm']; rfl
  -- the kernel's own change to the volume
  have hvol : m'.vol = (m.vol).stored i d := by
    have hblk : m'.shown = update m.shown (m.iblock i)
        (putDinode (i % IPB) d (m.shown (m.iblock i))) := by
      rw [← hm', hpl.shown_writeSector (Nat.ne_of_lt hlt), h.plain.shown_eq,
        if_neg (Nat.ne_of_lt hlt)]
      rfl
    have hsb : m'.sb = m.sb := hpl'.sb.trans h.plain.sb.symm
    rw [vol, hblk, hsb]
    rfl
  have hnone : (m.vol).cached i = none := cached_eq_none fun _ hj => absurd hj.1 (Nat.lt_irrefl 0)
  have hfree : ¬(m.vol).InUse i := fun hu =>
    hu.2 (hold (lt_of_lt_of_eq hu.1 (congrArg Superblock.ninodes h.sb)))
  have hib : Fs.iblock i (m.vol).sb < (m.vol).sb.bmapstart := by
    rw [congrArg Superblock.bmapstart h.sb]
    exact hlt
  have hrefs := h.sound.refs_stored hib hnone hfree hd
  have hdin := dinode_stored hnone d
  rw [hvol]
  refine ⟨⟨hpl', by rw [← hvol]; rfl, h.sb, h.sound.stored hib hnone hfree hd, fun b hb hb' => ?_⟩,
    by rw [hdin, if_pos rfl], fun j hj => by rw [hdin, if_neg hj], hrefs, fun j o => ?_, ?_⟩
  · rw [hrefs]
    exact h.covered b hb (hfb ▸ hb')
  · have hat : ((m.vol).stored i d).blockAt j (o / BSIZE) = (m.vol).blockAt j (o / BSIZE) := by
      rw [Vol.blockAt, Vol.blockAt, hrefs]
    rw [Vol.fileByte, Vol.fileByte, hat]
    split_ifs with h0
    · rfl
    · obtain ⟨p, hp⟩ := listed_of_blockAt rfl h0
      rw [← hp, h.sound.blk_stored hib]
  · refine filter_congr fun x _ => ?_
    rw [bit_stored hib]

end Tool

end Xv6.Mkfs
