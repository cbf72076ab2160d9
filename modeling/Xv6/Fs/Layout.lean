import Xv6.Fs.Block

/-!
# The on-disk format

The records of `crates/fs/src/fsh.rs`: the superblock, the inode and the
directory entry.  Inodes and the superblock are read and written through pointer
casts, so they are given by the words of the block they lie in.

* `dinodeAt_putDinode_self`, `dinodeAt_putDinode_of_ne` — an inode stored in an
  inode block is read back, and its neighbours are left alone.
* `Dirent.ofBytes_toBytes` — a directory entry survives its sixteen bytes.
-/

namespace Xv6.Fs

open Lib List

/-! ## Superblock -/

/-- `struct Superblock`. -/
structure Superblock where
  /-- Blocks of the image. -/
  size : ℕ
  /-- Data blocks. -/
  nblocks : ℕ
  /-- Inodes. -/
  ninodes : ℕ
  /-- Log blocks. -/
  nlog : ℕ
  /-- First log block. -/
  logstart : ℕ
  /-- First inode block. -/
  inodestart : ℕ
  /-- First free-map block. -/
  bmapstart : ℕ
  deriving DecidableEq, Repr

/-- The superblock in the bytes of block 1. -/
def Superblock.ofBlock (d : Block) : Superblock where
  size := d.word 0
  nblocks := d.word 1
  ninodes := d.word 2
  nlog := d.word 3
  logstart := d.word 4
  inodestart := d.word 5
  bmapstart := d.word 6

/-- The block that holds inode `i`. -/
def iblock (i : ℕ) (sb : Superblock) : ℕ := i / IPB + sb.inodestart

/-- The free-map block that holds the bit of block `b`. -/
def bblock (b : ℕ) (sb : Superblock) : ℕ := b / BPB + sb.bmapstart

/-! ## Inodes -/

/-- `T_DIR`. -/
abbrev T_DIR : UInt16 := 1

/-- `T_FILE`. -/
abbrev T_FILE : UInt16 := 2

/-- `T_DEV`. -/
abbrev T_DEV : UInt16 := 3

/-- `struct Dinode`.  The four signed 16-bit fields are kept as their bit patterns:
the source compares them with constants and, for `major`, with `NDEV` after a
sign extension that sends negative numbers far above it. -/
@[ext] structure Dinode where
  /-- File type, 0 for a free inode. -/
  itype : UInt16
  /-- Major device number. -/
  major : UInt16
  /-- Minor device number. -/
  minor : UInt16
  /-- Directory entries that name the inode. -/
  nlink : UInt16
  /-- Bytes of the file. -/
  size : UInt32
  /-- Block addresses; the last one is the indirect block's. -/
  addrs : Fin (NDIRECT + 1) → UInt32
  deriving DecidableEq

namespace Dinode

/-- The zeroed inode. -/
def zero : Dinode :=
  { itype := 0, major := 0, minor := 0, nlink := 0, size := 0, addrs := fun _ => 0 }

instance : Inhabited Dinode := ⟨zero⟩

/-- Block address `j` as a number. -/
def addr (d : Dinode) (j : Fin (NDIRECT + 1)) : ℕ := (d.addrs j).toNat

/-- The place of the indirect block's address. -/
abbrev indirect : Fin (NDIRECT + 1) := Fin.last NDIRECT

/-- `addrs[j] = b`. -/
def setAddr (d : Dinode) (j : Fin (NDIRECT + 1)) (b : ℕ) : Dinode :=
  { d with addrs := Function.update d.addrs j (UInt32.ofNat b) }

/-- Is this a directory? -/
def isDir (d : Dinode) : Bool := d.itype == T_DIR

/-- Is this a device? -/
def isDev (d : Dinode) : Bool := d.itype == T_DEV

theorem addr_lt (d : Dinode) (j : Fin (NDIRECT + 1)) : d.addr j < 2 ^ 32 := (d.addrs j).toNat_lt

@[simp] theorem addr_zero (j : Fin (NDIRECT + 1)) : zero.addr j = 0 := rfl

theorem addr_setAddr_self (d : Dinode) (j : Fin (NDIRECT + 1)) {b : ℕ} (hb : b < 2 ^ 32) :
    (d.setAddr j b).addr j = b := by
  simp only [addr, setAddr, Function.update_self]
  exact UInt32.toNat_ofNat_of_lt' hb

theorem addr_setAddr_of_ne (d : Dinode) {i j : Fin (NDIRECT + 1)} (h : i ≠ j) (b : ℕ) :
    (d.setAddr j b).addr i = d.addr i := by
  simp only [addr, setAddr, Function.update_of_ne h]

/-- The sixteen words of an inode. -/
def words (d : Dinode) : List ℕ :=
  [d.itype.toNat + 65536 * d.major.toNat, d.minor.toNat + 65536 * d.nlink.toNat, d.size.toNat] ++
    List.ofFn d.addr

@[simp] theorem length_words (d : Dinode) : d.words.length = 16 := by
  simp [words]

theorem words_lt (d : Dinode) : ∀ v ∈ d.words, v < 2 ^ 32 := by
  have ht := d.itype.toNat_lt
  have hm := d.major.toNat_lt
  have hi := d.minor.toNat_lt
  have hl := d.nlink.toNat_lt
  intro v hv
  simp only [words, mem_append, mem_cons, not_mem_nil, or_false, mem_ofFn'] at hv
  rcases hv with (rfl | rfl | rfl) | ⟨j, rfl⟩
  · omega
  · omega
  · exact d.size.toNat_lt
  · exact d.addr_lt j

end Dinode

/-- Inode `k` of an inode block. -/
def dinodeAt (d : Block) (k : ℕ) : Dinode where
  itype := UInt16.ofNat (d.word (16 * k))
  major := UInt16.ofNat (d.word (16 * k) / 65536)
  minor := UInt16.ofNat (d.word (16 * k + 1))
  nlink := UInt16.ofNat (d.word (16 * k + 1) / 65536)
  size := UInt32.ofNat (d.word (16 * k + 2))
  addrs j := UInt32.ofNat (d.word (16 * k + 3 + j))

/-- Store inode `k` of an inode block. -/
def putDinode (k : ℕ) (x : Dinode) (d : Block) : Block := d.putWords (16 * k) x.words

theorem word_putDinode_self {k : ℕ} (hk : k < IPB) (x : Dinode) (d : Block) {i : ℕ} (hi : i < 16) :
    (putDinode k x d).word (16 * k + i) = x.words.getD i 0 := by
  have hipb : IPB = 8 := rfl
  have hwords : BSIZE / 4 = 128 := rfl
  rw [putDinode, Block.word_putWords _ _ _ x.words_lt (by omega), x.length_words,
    if_pos (by omega), Nat.add_sub_cancel_left]

theorem word_putDinode_of_ne {k k' : ℕ} (hk' : k' < IPB) (h : k' ≠ k) (x : Dinode) (d : Block)
    {i : ℕ} (hi : i < 16) : (putDinode k x d).word (16 * k' + i) = d.word (16 * k' + i) := by
  have hipb : IPB = 8 := rfl
  have hwords : BSIZE / 4 = 128 := rfl
  rw [putDinode, Block.word_putWords _ _ _ x.words_lt (by omega), x.length_words, if_neg (by omega)]

/-- **A stored inode is read back.** -/
theorem dinodeAt_putDinode_self {k : ℕ} (hk : k < IPB) (x : Dinode) (d : Block) :
    dinodeAt (putDinode k x d) k = x := by
  have hw := fun i hi => word_putDinode_self hk x d (i := i) hi
  have ht := x.itype.toNat_lt
  have hm := x.minor.toNat_lt
  have h0 : (putDinode k x d).word (16 * k) = x.itype.toNat + 65536 * x.major.toNat :=
    hw 0 (by omega)
  have h1 : (putDinode k x d).word (16 * k + 1) = x.minor.toNat + 65536 * x.nlink.toNat :=
    hw 1 (by omega)
  have h2 : (putDinode k x d).word (16 * k + 2) = x.size.toNat := hw 2 (by omega)
  have h3 : ∀ j : Fin (NDIRECT + 1), (putDinode k x d).word (16 * k + 3 + j) = x.addr j := by
    intro j
    have hj : (j : ℕ) < 13 := j.isLt
    have hlen : (3 : ℕ) ≤ 3 + j := Nat.le_add_right 3 j
    rw [Nat.add_assoc, hw (3 + j) (by omega), Dinode.words, getD_append_right _ _ _ _ hlen]
    simp only [length_cons, length_nil, Nat.zero_add, Nat.reduceAdd, Nat.add_sub_cancel_left]
    rw [getD_eq_getElem _ _ (by simp), List.getElem_ofFn]
  ext1
  · rw [dinodeAt, h0, ← UInt16.toNat_inj, UInt16.toNat_ofNat']
    omega
  · rw [dinodeAt, h0, ← UInt16.toNat_inj, UInt16.toNat_ofNat']
    have := x.major.toNat_lt
    omega
  · rw [dinodeAt, h1, ← UInt16.toNat_inj, UInt16.toNat_ofNat']
    omega
  · rw [dinodeAt, h1, ← UInt16.toNat_inj, UInt16.toNat_ofNat']
    have := x.nlink.toNat_lt
    omega
  · rw [dinodeAt, h2, UInt32.ofNat_toNat]
  · funext j
    simp only [dinodeAt, h3, Dinode.addr, UInt32.ofNat_toNat]

/-- **Storing an inode leaves the others of its block alone.** -/
theorem dinodeAt_putDinode_of_ne {k k' : ℕ} (hk' : k' < IPB) (h : k' ≠ k) (x : Dinode) (d : Block) :
    dinodeAt (putDinode k x d) k' = dinodeAt d k' := by
  have hw := fun i hi => word_putDinode_of_ne hk' h x d (i := i) hi
  have h0 := hw 0 (by omega)
  have h1 := hw 1 (by omega)
  have h2 := hw 2 (by omega)
  rw [Nat.add_zero] at h0
  simp only [dinodeAt, h0, h1, h2, Nat.add_assoc]
  refine congrArg (Dinode.mk _ _ _ _ _) ?_
  funext j
  have hj : (j : ℕ) < 13 := j.isLt
  rw [hw (3 + j) (by omega)]

/-! ## Directory entries -/

/-- `struct Dirent`. -/
@[ext] structure Dirent where
  /-- Inode number, 0 for a free entry. -/
  inum : UInt16
  /-- The name's bytes. -/
  name : Fin DIRSIZ → UInt8
  deriving DecidableEq

namespace Dirent

/-- Bytes of a directory entry. -/
abbrev size : ℕ := 16

/-- The entry in the sixteen bytes at the start of an array. -/
def ofBytes (f : ℕ → UInt8) : Dirent where
  inum := UInt16.ofNat (readLE f 0 2)
  name i := f (2 + i)

/-- The sixteen bytes of an entry. -/
def toBytes (de : Dirent) : ℕ → UInt8 := fun i =>
  if i < 2 then byteOf de.inum.toNat i
  else if h : i - 2 < DIRSIZ then de.name ⟨i - 2, h⟩ else 0

/-- **A directory entry survives its sixteen bytes.** -/
theorem ofBytes_toBytes (de : Dirent) : ofBytes de.toBytes = de := by
  have hi := de.inum.toNat_lt
  ext1
  · have hread : readLE de.toBytes 0 2 = de.inum.toNat := by
      have h0 : (de.toBytes 0).toNat = de.inum.toNat % 256 := by
        rw [toBytes, if_pos (by omega), toNat_byteOf, pow_zero, Nat.div_one]
      have h1 : (de.toBytes 1).toNat = de.inum.toNat / 256 % 256 := by
        rw [toBytes, if_pos (by omega), toNat_byteOf, pow_one]
      rw [readLE, readLE, readLE, h0, h1]
      omega
    rw [ofBytes, hread, UInt16.ofNat_toNat]
  · funext i
    have hsub : 2 + (i : ℕ) - 2 = i := by omega
    simp only [ofBytes, toBytes, hsub]
    rw [if_neg (by omega), dif_pos i.isLt]

theorem ofBytes_congr {f g : ℕ → UInt8} (h : ∀ i, i < size → f i = g i) :
    ofBytes f = ofBytes g := by
  have hread : readLE f 0 2 = readLE g 0 2 := readLE_congr fun i _ hi =>
    h i (show i < 16 by omega)
  ext1
  · rw [ofBytes, ofBytes, hread]
  · funext i
    have hi : (i : ℕ) < 14 := i.isLt
    exact h (2 + i) (show 2 + (i : ℕ) < 16 by omega)

end Dirent

end Xv6.Fs
