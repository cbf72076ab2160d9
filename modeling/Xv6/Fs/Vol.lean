import Xv6.Lib.Prog
import Xv6.Fs.Layout
import Xv6.Fs.Log

/-!
# The file system of one volume

`crates/fs/src/fs.rs`, and `fileread` and `filewrite` of `file.rs`, over the state
they share: the blocks as the buffer cache hands them out, who holds which buffer,
the log in memory, the superblock, the inode cache and the open-file table.  There
is one device in this kernel, so device numbers are left out.

Each function is a program whose steps are the accesses to that state; a section
under `icache.lock` or `log.lock` is one step.  Run on its own it is the
sequential code; in a pool it interleaves with the other processes at every
buffer lock, inode lock and memory access.  That the contents of the locked
buffer are the last contents given to the block, whatever the cache evicts and
whatever the log installs, is what `Xv6.Fs.BlockStore` and `Xv6.Fs.CrashSafety`
say about the layers below.

`passed` is no part of the kernel: it lists the blocks passed to `log_write`.
-/

namespace Xv6.Fs

open Lib

/-! ## State -/

/-- `struct Inode`, an entry of the inode cache. -/
structure Inode (τ : Type) where
  /-- Inode number. -/
  inum : ℕ
  /-- Reference count. -/
  ref : ℕ
  /-- Holder of the sleep lock. -/
  lock : Option τ
  /-- The copy below has been read from disk. -/
  valid : Bool
  /-- Copy of the inode on disk. -/
  d : Dinode
  deriving DecidableEq

/-- `enum FileType`. -/
inductive FileType where
  /-- No file. -/
  | none
  /-- One end of a pipe. -/
  | pipe
  /-- A file of the file system. -/
  | inode
  deriving DecidableEq

/-- `struct File`, an entry of the open-file table. -/
structure File where
  /-- What the entry is for. -/
  ftype : FileType
  /-- Opened for reading. -/
  readable : Bool
  /-- Opened for writing. -/
  writable : Bool
  /-- The inode's cache entry. -/
  ip : Fin NINODE
  /-- Position in the file. -/
  off : ℕ
  deriving DecidableEq

/-- What the file-system code works on. -/
structure Vol (τ : Type) where
  /-- Contents of each block. -/
  blk : ℕ → Block
  /-- Holder of each block's buffer. -/
  held : ℕ → Option τ
  /-- The log in memory. -/
  log : Log
  /-- `SB`, the superblock in memory. -/
  sb : Superblock
  /-- `icache.inode`. -/
  inode : Fin NINODE → Inode τ
  /-- `ftable.file`. -/
  file : Fin NFILE → File
  /-- The blocks passed to `log_write` so far. -/
  passed : List ℕ

namespace Vol

variable {τ : Type}

/-- Give a block new contents. -/
def setBlk (s : Vol τ) (b : ℕ) (d : Block) : Vol τ := { s with blk := Function.update s.blk b d }

/-- Give a block's buffer a holder. -/
def setHeld (s : Vol τ) (b : ℕ) (h : Option τ) : Vol τ :=
  { s with held := Function.update s.held b h }

/-- Change an entry of the inode cache. -/
def modInode (s : Vol τ) (ip : Fin NINODE) (f : Inode τ → Inode τ) : Vol τ :=
  { s with inode := Function.update s.inode ip (f (s.inode ip)) }

/-- Change the copy of the inode on disk in an entry of the inode cache. -/
def modDinode (s : Vol τ) (ip : Fin NINODE) (f : Dinode → Dinode) : Vol τ :=
  s.modInode ip fun x => { x with d := f x.d }

/-! ## Buffers and the log -/

/-- `bio::read`: wait for the block's buffer and lock it. -/
def read (me : τ) (b : ℕ) : Prog (Vol τ) Unit :=
  .await (fun s => (s.held b).isNone) fun s => s.setHeld b (some me)

/-- Look into a locked buffer. -/
def dataOf (b : ℕ) : Prog (Vol τ) Block := .look fun s => s.blk b

/-- Change a locked buffer. -/
def modify (b : ℕ) (f : Block → Block) : Prog (Vol τ) Unit :=
  .change fun s => s.setBlk b (f (s.blk b))

/-- The end of a `BufGuard`'s life. -/
def release (b : ℕ) : Prog (Vol τ) Unit := .change fun s => s.setHeld b none

/-- The locked part of `log_write`. -/
def recordSection (b : ℕ) (s : Vol τ) : Except String (Unit × Vol τ) :=
  match s.log.record b with
  | some lg => .ok ((), { s with log := lg, passed := s.passed ++ [b] })
  | none => .error "index out of bounds"

/-- `log_write`. -/
def logWrite (b : ℕ) : Prog (Vol τ) Unit := do
  .panicIf (fun s => s.log.tooBig) "too big a transaction"
  .panicIf (fun s => decide (s.log.outstanding < 1)) "log_write outside of trans"
  .critical (recordSection b)

/-- `begin_op`. -/
def beginOp : Prog (Vol τ) Unit :=
  .await (fun s => !s.log.mustWait) fun s => { s with log := s.log.enter }

/-- The first section of `end_op`: leave, and say whether this call commits. -/
def leaveSection (s : Vol τ) : Except String (Bool × Vol τ) :=
  if s.log.committing then .error "log.committing"
  else if s.log.leave.outstanding = 0 then
    .ok (true, { s with log := { s.log.leave with committing := true } })
  else .ok (false, { s with log := s.log.leave })

/-- `end_op`.  To the file system a commit is the emptying of the log: it copies
blocks without changing what the cache hands out. -/
def endOp : Prog (Vol τ) Unit := do
  let doCommit ← .critical leaveSection
  if doCommit then
    .change fun s => { s with log := { s.log with committing := false, block := [] } }
  else pure ()

/-! ## Superblock and block allocator -/

/-- `readsb(dev, &mut SB)`. -/
def readsb (me : τ) : Prog (Vol τ) Unit := do
  read me 1
  .change fun s => { s with sb := Superblock.ofBlock (s.blk 1) }
  release 1

/-- `bzero`. -/
def bzero (me : τ) (bno : ℕ) : Prog (Vol τ) Unit := do
  read me bno
  modify bno fun _ => Block.zero
  logWrite bno
  release bno

/-- The inner loop of `balloc`: the first clear bit among those of the blocks
`b, b+1, ..` that the free-map block `d` is about, short of the volume's end. -/
def firstFree (d : Block) (b size : ℕ) : Option ℕ :=
  (List.range (min BPB (size - b))).find? fun bi => !d.bit bi

/-- The outer loop of `balloc`, over the first blocks of the free-map blocks. -/
def ballocFrom (me : τ) : List ℕ → Prog (Vol τ) ℕ
  | [] => .panic "balloc: out of blocks"
  | b :: bs => do
    let sb ← .look fun s => s.sb
    read me (bblock b sb)
    let d ← dataOf (bblock b sb)
    match firstFree d b sb.size with
    | some bi => do
      modify (bblock b sb) fun d => d.setBit bi
      logWrite (bblock b sb)
      release (bblock b sb)
      bzero me (b + bi)
      pure (b + bi)
    | none => do
      release (bblock b sb)
      ballocFrom me bs

/-- The values of the outer loop's `b`: the multiples of `BPB` below `size`. -/
def bmapStarts (size : ℕ) : List ℕ := (List.range ((size + BPB - 1) / BPB)).map (· * BPB)

/-- `balloc`. -/
def balloc (me : τ) : Prog (Vol τ) ℕ := do
  let sb ← .look fun s => s.sb
  ballocFrom me (bmapStarts sb.size)

/-- `bfree`. -/
def bfree (me : τ) (b : ℕ) : Prog (Vol τ) Unit := do
  readsb me
  let sb ← .look fun s => s.sb
  read me (bblock b sb)
  let d ← dataOf (bblock b sb)
  if !d.bit (b % BPB) then .panic "freeing free block"
  else do
    modify (bblock b sb) fun d => d.clearBit (b % BPB)
    logWrite (bblock b sb)
    release (bblock b sb)

/-! ## Inodes -/

/-- `iget`, all of it under `icache.lock`. -/
def igetSection (inum : ℕ) (s : Vol τ) : Except String (Fin NINODE × Vol τ) :=
  match (List.finRange NINODE).find? fun i =>
      decide (0 < (s.inode i).ref) && (s.inode i).inum == inum with
  | some i => .ok (i, s.modInode i fun x => { x with ref := x.ref + 1 })
  | none =>
    match (List.finRange NINODE).find? fun i => (s.inode i).ref == 0 with
    | some i => .ok (i, s.modInode i fun x => { x with inum := inum, ref := 1, valid := false })
    | none => .error "iget: no inodes"

/-- `iget`. -/
def iget (inum : ℕ) : Prog (Vol τ) (Fin NINODE) := .critical (igetSection inum)

/-- The loop of `ialloc`. -/
def iallocFrom (me : τ) (itype : UInt16) : List ℕ → Prog (Vol τ) (Fin NINODE)
  | [] => .panic "ialloc: no inodes"
  | inum :: inums => do
    let sb ← .look fun s => s.sb
    read me (iblock inum sb)
    let d ← dataOf (iblock inum sb)
    if (dinodeAt d (inum % IPB)).itype = 0 then do
      modify (iblock inum sb) (putDinode (inum % IPB) { Dinode.zero with itype := itype })
      logWrite (iblock inum sb)
      release (iblock inum sb)
      iget inum
    else do
      release (iblock inum sb)
      iallocFrom me itype inums

/-- `ialloc`. -/
def ialloc (me : τ) (itype : UInt16) : Prog (Vol τ) (Fin NINODE) := do
  let sb ← .look fun s => s.sb
  iallocFrom me itype (List.range' 1 (sb.ninodes - 1))

/-- `iupdate`. -/
def iupdate (me : τ) (ip : Fin NINODE) : Prog (Vol τ) Unit := do
  let sb ← .look fun s => s.sb
  let inum ← .look fun s => (s.inode ip).inum
  read me (iblock inum sb)
  .change fun s => s.setBlk (iblock inum sb)
    (putDinode (inum % IPB) (s.inode ip).d (s.blk (iblock inum sb)))
  logWrite (iblock inum sb)
  release (iblock inum sb)

/-- `idup`. -/
def idup (ip : Fin NINODE) : Prog (Vol τ) (Fin NINODE) := do
  .change fun s => s.modInode ip fun x => { x with ref := x.ref + 1 }
  pure ip

/-- The copy from the buffer in `ilock`.  The source marks the entry valid before it
panics; nobody sees the difference. -/
def loadSection (ip : Fin NINODE) (b k : ℕ) (s : Vol τ) : Except String (Unit × Vol τ) :=
  if (dinodeAt (s.blk b) k).itype = 0 then .error "ilock: no type"
  else .ok ((), s.modInode ip fun x => { x with valid := true, d := dinodeAt (s.blk b) k })

/-- `ilock`. -/
def ilock (me : τ) (ip : Fin NINODE) : Prog (Vol τ) Unit := do
  .panicIf (fun s => decide ((s.inode ip).ref < 1)) "ilock"
  .await (fun s => (s.inode ip).lock.isNone) fun s =>
    s.modInode ip fun x => { x with lock := some me }
  let x ← .look fun s => s.inode ip
  if x.valid then pure ()
  else do
    let sb ← .look fun s => s.sb
    read me (iblock x.inum sb)
    .critical (loadSection ip (iblock x.inum sb) (x.inum % IPB))
    release (iblock x.inum sb)

/-- `iunlock`.  `holdingsleep` tells whether anybody holds the lock. -/
def iunlock (ip : Fin NINODE) : Prog (Vol τ) Unit := do
  .panicIf (fun s => (s.inode ip).lock.isNone || decide ((s.inode ip).ref < 1)) "iunlock"
  .change fun s => s.modInode ip fun x => { x with lock := none }

/-! ## Inode content -/

/-- `*addr` for an address field of the inode, allocating a block if there is none. -/
def blockOf (me : τ) (ip : Fin NINODE) (j : Fin (NDIRECT + 1)) : Prog (Vol τ) ℕ := do
  let a ← .look fun s => (s.inode ip).d.addr j
  if a = 0 then do
    let b ← balloc me
    .change fun s => s.modDinode ip fun d => d.setAddr j b
    pure b
  else pure a

/-- `*addr` for entry `e` of the indirect block `a`, allocating a block if there is none. -/
def entryOf (me : τ) (a e : ℕ) : Prog (Vol τ) ℕ := do
  read me a
  let x ← .look fun s => (s.blk a).word e
  if x = 0 then do
    let b ← balloc me
    modify a fun d => d.setWord e b
    logWrite a
    release a
    pure b
  else do
    release a
    pure x

/-- `bmap`. -/
def bmap (me : τ) (ip : Fin NINODE) (bn : ℕ) : Prog (Vol τ) ℕ :=
  if h : bn < NDIRECT then blockOf me ip ⟨bn, Nat.lt_succ_of_lt h⟩
  else if bn - NDIRECT < NINDIRECT then do
    let a ← blockOf me ip Dinode.indirect
    entryOf me a (bn - NDIRECT)
  else .panic "bmap: out of range"

/-- The body of the first loop of `itrunc`. -/
def truncDirect (me : τ) (ip : Fin NINODE) (j : Fin (NDIRECT + 1)) : Prog (Vol τ) Unit := do
  let a ← .look fun s => (s.inode ip).d.addr j
  if a = 0 then pure ()
  else do
    bfree me a
    .change fun s => s.modDinode ip fun d => d.setAddr j 0

/-- The part of `itrunc` that frees the indirect block and the blocks it lists. -/
def truncIndirect (me : τ) (ip : Fin NINODE) : Prog (Vol τ) Unit := do
  let a ← .look fun s => (s.inode ip).d.addr Dinode.indirect
  if a = 0 then pure ()
  else do
    read me a
    .forEach (List.range NINDIRECT) fun j => do
      let b ← .look fun s => (s.blk a).word j
      if b = 0 then pure () else bfree me b
    release a
    bfree me a
    .change fun s => s.modDinode ip fun d => d.setAddr Dinode.indirect 0

/-- `itrunc`. -/
def itrunc (me : τ) (ip : Fin NINODE) : Prog (Vol τ) Unit := do
  .forEach (List.finRange NDIRECT) fun j => truncDirect me ip j.castSucc
  truncIndirect me ip
  .change fun s => s.modDinode ip fun d => { d with size := 0 }
  iupdate me ip

/-- The first section of `iput`: drop the reference, or find that it was the last one
to an inode without links. -/
def iputSection (ip : Fin NINODE) (s : Vol τ) : Except String (Bool × Vol τ) :=
  if (s.inode ip).ref = 1 ∧ (s.inode ip).valid = true ∧ (s.inode ip).d.nlink = 0 then .ok (true, s)
  else .ok (false, s.modInode ip fun x => { x with ref := x.ref - 1 })

/-- `iput`. -/
def iput (me : τ) (ip : Fin NINODE) : Prog (Vol τ) Unit := do
  let last ← .critical (iputSection ip)
  if last then do
    itrunc me ip
    .change fun s => s.modDinode ip fun d => { d with itype := 0 }
    iupdate me ip
    .change fun s => s.modInode ip fun x => { x with valid := false, ref := x.ref - 1 }
  else pure ()

/-! ## Reading and writing -/

/-- `DEVSW`: the read and write functions of each major device number. -/
structure Devsw (τ : Type) where
  /-- `read_fn(ip, off, dst, n)`, with the bytes put at `dst`. -/
  read : ℕ → Option (Fin NINODE → ℕ → ℤ → Prog (Vol τ) (ℤ × List UInt8))
  /-- `write_fn(ip, off, src, n)`. -/
  write : ℕ → Option (Fin NINODE → ℕ → (ℕ → UInt8) → ℤ → Prog (Vol τ) ℤ)

/-- The loop of `readi`, from `tot` bytes done; every pass copies at least one byte. -/
def readLoop (me : τ) (ip : Fin NINODE) (n : ℕ) : ℕ → ℕ → ℕ → Prog (Vol τ) (List UInt8)
  | 0, _, _ => pure []
  | fuel + 1, tot, cur =>
    if tot < n then do
      let b ← bmap me ip (cur / BSIZE)
      read me b
      let d ← dataOf b
      release b
      let m := min (n - tot) (BSIZE - cur % BSIZE)
      let rest ← readLoop me ip n fuel (tot + m) (cur + m)
      pure (d.bytes (cur % BSIZE) m ++ rest)
    else pure []

/-- `readi`: the return value and the bytes put at `dst`. -/
def readi (D : Devsw τ) (me : τ) (ip : Fin NINODE) (off n : ℕ) :
    Prog (Vol τ) (ℤ × List UInt8) := do
  let x ← .look fun s => (s.inode ip).d
  if x.isDev then
    if NDEV ≤ x.major.toNat then pure (-1, [])
    else match D.read x.major.toNat with
      | some readFn => readFn ip off (asI32 n)
      | none => pure (-1, [])
  else if x.size.toNat < off ∨ (off + n) % 2 ^ 32 < off then pure (-1, [])
  else do
    let m := min n (x.size.toNat - off)
    let bs ← readLoop me ip m m 0 off
    pure (asI32 m, bs)

/-- The loop of `writei`, from `tot` bytes done; it returns the last `cur_off`. -/
def writeLoop (me : τ) (ip : Fin NINODE) (src : ℕ → UInt8) (n : ℕ) :
    ℕ → ℕ → ℕ → Prog (Vol τ) ℕ
  | 0, _, cur => pure cur
  | fuel + 1, tot, cur =>
    if tot < n then do
      let b ← bmap me ip (cur / BSIZE)
      read me b
      let m := min (n - tot) (BSIZE - cur % BSIZE)
      modify b fun d => d.splice (cur % BSIZE) m fun i => src (tot + i)
      logWrite b
      release b
      writeLoop me ip src n fuel (tot + m) (cur + m)
    else pure cur

/-- `writei`. -/
def writei (D : Devsw τ) (me : τ) (ip : Fin NINODE) (src : ℕ → UInt8) (off n : ℕ) :
    Prog (Vol τ) ℤ := do
  let x ← .look fun s => (s.inode ip).d
  if x.isDev then
    if NDEV ≤ x.major.toNat then pure (-1)
    else match D.write x.major.toNat with
      | some writeFn => writeFn ip off src (asI32 n)
      | none => pure (-1)
  else if x.size.toNat < off ∨ (off + n) % 2 ^ 32 < off then pure (-1)
  else if MAXFILE * BSIZE < off + n then pure (-1)
  else do
    let cur ← writeLoop me ip src n n 0 off
    let size ← .look fun s => (s.inode ip).d.size.toNat
    if 0 < n ∧ size < cur then do
      .change fun s => s.modDinode ip fun d => { d with size := UInt32.ofNat cur }
      iupdate me ip
      pure (asI32 n)
    else pure (asI32 n)

/-! ## Open files -/

/-- `if r > 0 { f.off += r }`. -/
def advance (f : Fin NFILE) (r : ℤ) : Prog (Vol τ) Unit :=
  if 0 < r then .change fun s =>
    { s with file := Function.update s.file f { s.file f with off := (s.file f).off + r.toNat } }
  else pure ()

/-- `fileread`, with `piperead` given. -/
def fileread (D : Devsw τ) (piperead : Fin NFILE → ℤ → Prog (Vol τ) (ℤ × List UInt8))
    (me : τ) (f : Fin NFILE) (n : ℤ) : Prog (Vol τ) (ℤ × List UInt8) := do
  let fl ← .look fun s => s.file f
  if !fl.readable then pure (-1, [])
  else match fl.ftype with
    | .pipe => piperead f n
    | .inode => do
      ilock me fl.ip
      let off ← .look fun s => (s.file f).off
      let r ← readi D me fl.ip off (n % 2 ^ 32).toNat
      advance f r.1
      iunlock fl.ip
      pure r
    | .none => .panic "fileread"

/-- `max` in `filewrite`: the bytes written in one transaction. -/
def maxChunk : ℕ := ((LOGSIZE - 1 - 1 - 2) / 2) * 512

/-- The body of the loop of `filewrite` up to `end_op`: one transaction. -/
def writeSection (D : Devsw τ) (me : τ) (f : Fin NFILE) (src : ℕ → UInt8)
    (n1 : ℕ) : Prog (Vol τ) ℤ := do
  beginOp
  let ip ← .look fun s => (s.file f).ip
  ilock me ip
  let off ← .look fun s => (s.file f).off
  let r ← writei D me ip src off n1
  advance f r
  iunlock ip
  endOp
  pure r

/-- The loop of `filewrite`, from `i` bytes done; it returns the last `i`. -/
def writeSections (D : Devsw τ) (me : τ) (f : Fin NFILE) (src : ℕ → UInt8)
    (n : ℕ) : ℕ → ℕ → Prog (Vol τ) ℕ
  | 0, i => pure i
  | fuel + 1, i =>
    if i < n then do
      let n1 := min (n - i) maxChunk
      let r ← writeSection D me f (fun k => src (i + k)) n1
      if r < 0 then pure i
      else if r ≠ n1 then .panic "short filewrite"
      else writeSections D me f src n fuel (i + r.toNat)
    else pure i

/-- `filewrite`, with `pipewrite` given. -/
def filewrite (D : Devsw τ)
    (pipewrite : Fin NFILE → (ℕ → UInt8) → ℤ → Prog (Vol τ) ℤ) (me : τ) (f : Fin NFILE)
    (src : ℕ → UInt8) (n : ℤ) : Prog (Vol τ) ℤ := do
  let fl ← .look fun s => s.file f
  if !fl.writable then pure (-1)
  else match fl.ftype with
    | .pipe => pipewrite f src n
    | .inode => do
      let i ← writeSections D me f src n.toNat n.toNat 0
      if (i : ℤ) = n then pure n else pure (-1)
    | .none => .panic "filewrite"

/-! ## Directories -/

/-- The loop of `namecmp` over the query's bytes `s` and the entry's bytes `t`. -/
def namecmpLoop : List UInt8 → List UInt8 → Bool
  | [], _ => true
  | sc :: s, t =>
    if sc ≠ t.headD 0 then false
    else if sc = 0 then true
    else namecmpLoop s t.tail

/-- `namecmp`. -/
def namecmp (s t : List UInt8) : Bool := namecmpLoop (s.take DIRSIZ) t

/-- `name_len`: the length of a C string, `DIRSIZ` at most. -/
def nameLen (name : ℕ → UInt8) : ℕ := ((List.range DIRSIZ).takeWhile fun i => name i ≠ 0).length

/-- The first `name_len` bytes of a C string. -/
def nameSlice (name : ℕ → UInt8) : List UInt8 := (List.range (nameLen name)).map name

/-- The loop of `dirlookup` from offset `off`: the entry's slot in the inode cache and
its offset. -/
def lookupLoop (D : Devsw τ) (me : τ) (dp : Fin NINODE) (name : ℕ → UInt8) :
    ℕ → ℕ → Prog (Vol τ) (Option (Fin NINODE × ℕ))
  | 0, _ => pure none
  | fuel + 1, off => do
    let size ← .look fun s => (s.inode dp).d.size.toNat
    if off < size then do
      let r ← readi D me dp off Dirent.size
      if r.1 ≠ Dirent.size then .panic "dirlookup read"
      else do
        let de := Dirent.ofBytes fun i => r.2.getD i 0
        if de.inum ≠ 0 ∧ namecmp (nameSlice name) (List.ofFn de.name) = true then do
          let ip ← iget de.inum.toNat
          pure (some (ip, off))
        else lookupLoop D me dp name fuel (off + Dirent.size)
    else pure none

/-- `dirlookup`, with `*poff` returned beside the inode. -/
def dirlookup (D : Devsw τ) (me : τ) (dp : Fin NINODE) (name : ℕ → UInt8) :
    Prog (Vol τ) (Option (Fin NINODE × ℕ)) := do
  let x ← .look fun s => (s.inode dp).d
  if x.isDir then lookupLoop D me dp name x.size.toNat 0
  else .panic "dirlookup not DIR"

/-- The loop of `dirlink` that looks for a free entry; it returns the last `off`. -/
def freeSlotLoop (D : Devsw τ) (me : τ) (dp : Fin NINODE) : ℕ → ℕ → Prog (Vol τ) ℕ
  | 0, off => pure off
  | fuel + 1, off => do
    let size ← .look fun s => (s.inode dp).d.size.toNat
    if off < size then do
      let r ← readi D me dp off Dirent.size
      if r.1 ≠ Dirent.size then .panic "dirlink read"
      else do
        let de := Dirent.ofBytes fun i => r.2.getD i 0
        if de.inum = 0 then pure off
        else freeSlotLoop D me dp fuel (off + Dirent.size)
    else pure off

/-- The entry `dirlink` writes. -/
def newEntry (name : ℕ → UInt8) (inum : ℕ) : Dirent where
  inum := UInt16.ofNat inum
  name i := if (i : ℕ) < min (nameLen name) DIRSIZ then name i else 0

/-- `dirlink`. -/
def dirlink (D : Devsw τ) (me : τ) (dp : Fin NINODE) (name : ℕ → UInt8) (inum : ℕ) :
    Prog (Vol τ) ℤ := do
  let found ← dirlookup D me dp name
  match found with
  | some (ip, _) => do
    iput me ip
    pure (-1)
  | none => do
    let size ← .look fun s => (s.inode dp).d.size.toNat
    let off ← freeSlotLoop D me dp size 0
    let r ← writei D me dp (newEntry name inum).toBytes off Dirent.size
    if r ≠ Dirent.size then .panic "dirlink" else pure 0

end Vol

end Xv6.Fs
