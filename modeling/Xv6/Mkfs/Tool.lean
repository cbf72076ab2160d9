import Xv6.Fs.Layout

/-!
# The image builder

`mkfs/src/main.rs`, the host program that writes the file-system image: the root
directory, one file for every argument, and at the end the free map.

The image is a host file that is read and written in whole sectors.  Writing past
its end makes it longer, reading past its end is an error, and that error is the
only bound on the allocation of blocks.  Host files are given as a function from
names to contents.

`wrote` and `placed` are no part of the program: they list the inode numbers
passed to `write_inode` and those put into directory entries.
-/

namespace Xv6.Mkfs

open Fs

/-! ## Constants -/

/-- `FSSIZE`: sectors of the image. -/
abbrev FSSIZE : ℕ := 2000

/-- `LOGSIZE`. -/
abbrev LOGSIZE : ℕ := 30

/-- `n_inode_blocks`. -/
abbrev nInodeBlocks : ℕ := 200 / IPB + 1

/-- `n_bitmap`. -/
abbrev nBitmap : ℕ := FSSIZE / (BSIZE * 8) + 1

/-- `n_meta`. -/
abbrev nMeta : ℕ := 2 + LOGSIZE + nInodeBlocks + nBitmap

/-! ## State -/

/-- How a run can fail. -/
inductive Failure where
  /-- A read past the end of the image. -/
  | unexpectedEof
  /-- A host file that cannot be opened. -/
  | notFound
  /-- `assert!`. -/
  | assertion (msg : String)
  /-- An index past the end of a slice. -/
  | outOfBounds
  deriving DecidableEq, Repr

/-- `struct Mkfs`. -/
structure Tool where
  /-- Sectors of the image file. -/
  nsec : ℕ
  /-- Their contents. -/
  sector : ℕ → Block
  /-- The superblock. -/
  sb : Superblock
  /-- The next inode number. -/
  freeInode : ℕ
  /-- The next block. -/
  freeBlock : ℕ
  /-- The inode numbers passed to `write_inode` so far. -/
  wrote : List ℕ
  /-- The inode numbers put into directory entries so far. -/
  placed : List ℕ

namespace Tool

/-- `Mkfs::new`. -/
def new : Tool where
  nsec := 0
  sector _ := Block.zero
  sb :=
    { size := FSSIZE
      nblocks := FSSIZE - nMeta
      ninodes := 200
      nlog := LOGSIZE
      logstart := 2
      inodestart := 2 + LOGSIZE
      bmapstart := 2 + LOGSIZE + nInodeBlocks }
  freeInode := 1
  freeBlock := nMeta
  wrote := []
  placed := []

/-! ## Sectors and inodes -/

/-- `write_sector`. -/
def writeSector (m : Tool) (sec : ℕ) (d : Block) : Tool :=
  { m with nsec := max m.nsec (sec + 1), sector := Function.update m.sector sec d }

/-- `read_sector`. -/
def readSector (m : Tool) (sec : ℕ) : Except Failure Block :=
  if sec < m.nsec then .ok (m.sector sec) else .error .unexpectedEof

/-- `iblock`. -/
def iblock (m : Tool) (inum : ℕ) : ℕ := inum / IPB + m.sb.inodestart

/-- `read_inode`. -/
def readInode (m : Tool) (inum : ℕ) : Except Failure Dinode := do
  let buf ← m.readSector (m.iblock inum)
  pure (dinodeAt buf (inum % IPB))

/-- `write_inode`. -/
def writeInode (m : Tool) (inum : ℕ) (din : Dinode) : Except Failure Tool := do
  let buf ← m.readSector (m.iblock inum)
  let m := { m with wrote := m.wrote ++ [inum] }
  pure (m.writeSector (m.iblock inum) (putDinode (inum % IPB) din buf))

/-- `ialloc`. -/
def ialloc (m : Tool) (itype : UInt16) : Except Failure (ℕ × Tool) := do
  let inum := m.freeInode
  let m := { m with freeInode := m.freeInode + 1 }
  let m ← m.writeInode inum { Dinode.zero with itype := itype, nlink := 1, size := 0 }
  pure (inum, m)

/-! ## Appending to a file -/

/-- `free_block`, taken. -/
def bump (m : Tool) : Tool := { m with freeBlock := m.freeBlock + 1 }

/-- Give an address field of the inode a block if it has none. -/
def mapAddr (m : Tool) (din : Dinode) (j : Fin (NDIRECT + 1)) : Dinode × Tool :=
  if din.addr j = 0 then (din.setAddr j m.freeBlock, m.bump) else (din, m)

/-- `target_block` for an entry of the indirect block `a`. -/
def targetEntry (m : Tool) (a idx : ℕ) : Except Failure (ℕ × Tool) := do
  let indirect ← m.readSector a
  if indirect.word idx = 0 then
    pure (m.freeBlock, m.bump.writeSector a (indirect.setWord idx m.freeBlock))
  else pure (indirect.word idx, m)

/-- `target_block` for block `fbn` of a file. -/
def target (m : Tool) (din : Dinode) (fbn : ℕ) : Except Failure (ℕ × Dinode × Tool) :=
  if h : fbn < NDIRECT then
    let r := m.mapAddr din ⟨fbn, Nat.lt_succ_of_lt h⟩
    pure (r.1.addr ⟨fbn, Nat.lt_succ_of_lt h⟩, r)
  else do
    let r := m.mapAddr din Dinode.indirect
    let e ← r.2.targetEntry (r.1.addr Dinode.indirect) (fbn - NDIRECT)
    pure (e.1, r.1, e.2)

/-- The loop of `iappend`, from `p` bytes done; every pass copies at least one byte. -/
def appendLoop (data : List UInt8) : ℕ → Tool → Dinode → ℕ → ℕ →
    Except Failure (Tool × Dinode × ℕ)
  | 0, m, din, off, _ => pure (m, din, off)
  | fuel + 1, m, din, off, p =>
    if p < data.length then
      if MAXFILE ≤ off / BSIZE then .error (.assertion "file too large")
      else do
        let (b, din, m) ← m.target din (off / BSIZE)
        let n1 := min (data.length - p) ((off / BSIZE + 1) * BSIZE - off)
        let buf ← m.readSector b
        let m := m.writeSector b
          (buf.splice (off - off / BSIZE * BSIZE) n1 fun i => data.getD (p + i) 0)
        appendLoop data fuel m din (off + n1) (p + n1)
    else pure (m, din, off)

/-- `iappend`. -/
def iappend (m : Tool) (inum : ℕ) (data : List UInt8) : Except Failure Tool := do
  let din ← m.readInode inum
  let (m, din, off) ← appendLoop data data.length m din din.size.toNat 0
  m.writeInode inum { din with size := UInt32.ofNat off }

/-! ## `main` -/

/-- `Dirent::set_name`. -/
def setName (s : List UInt8) : Fin DIRSIZ → UInt8 := fun i =>
  if (i : ℕ) < min s.length DIRSIZ then s.getD i 0 else 0

/-- `Dirent::as_bytes`. -/
def asBytes (de : Dirent) : List UInt8 := (List.range Dirent.size).map de.toBytes

/-- Append an entry to the root directory. -/
def addEntry (m : Tool) (root inum : ℕ) (name : List UInt8) : Except Failure Tool :=
  { m with placed := m.placed ++ [inum % 65536] }.iappend root
    (asBytes { inum := UInt16.ofNat inum, name := setName name })

/-- `display_name`: one leading `_` is dropped. -/
def displayName : List UInt8 → List UInt8
  | [] => []
  | c :: cs => if c = 95 then cs else c :: cs

/-- The body of the loop over the arguments. -/
def addFile (host : List UInt8 → Option (List UInt8)) (root : ℕ) (m : Tool)
    (filename : List UInt8) : Except Failure Tool :=
  match host filename with
  | none => .error .notFound
  | some data => do
    let (inum, m) ← m.ialloc T_FILE
    let m ← m.addEntry root inum (displayName filename)
    m.iappend inum data

/-- The superblock's sector. -/
def superSector (sb : Superblock) : Block :=
  Block.zero.putWords 0
    [sb.size, sb.nblocks, sb.ninodes, sb.nlog, sb.logstart, sb.inodestart, sb.bmapstart]

/-- The image with its first `n` sectors zeroed. -/
@[irreducible] def zeroed (n : ℕ) : Tool :=
  (List.range n).foldl (fun m i => m.writeSector i Block.zero) new

/-- The image before the root directory: every sector zeroed, the superblock in its place. -/
def start : Tool := (zeroed FSSIZE).writeSector 1 (superSector new.sb)

/-- The free map with the first `n` bits set. -/
def bitmap (n : ℕ) : Block := (List.range n).foldl Block.setBit Block.zero

/-- The free map is written. -/
def finish (m : Tool) : Except Failure Tool :=
  if BSIZE * 8 < m.freeBlock then .error .outOfBounds
  else pure (m.writeSector m.sb.bmapstart (bitmap m.freeBlock))

/-- The image with the root directory and nothing in it but `.` and `..`. -/
def withRoot : Except Failure Tool := do
  let (root, m) ← start.ialloc T_DIR
  if root ≠ ROOTINO then .error (.assertion "root_ino == ROOTINO")
  else do
    let m ← m.addEntry root root [46]
    m.addEntry root root [46, 46]

/-- `main`, for the files named on the command line. -/
def main (host : List UInt8 → Option (List UInt8)) (files : List (List UInt8)) :
    Except Failure Tool := do
  let m ← withRoot
  let m ← files.foldlM (addFile host ROOTINO) m
  m.finish

end Tool

end Xv6.Mkfs
