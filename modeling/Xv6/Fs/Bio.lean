import Xv6.Lib.Prog
import Xv6.Fs.Block
import Xv6.Fs.Log

/-!
# The block layer: buffer cache and log

`crates/fs/src/bio.rs` and the parts of `crates/fs/src/log.rs` that move blocks,
as programs over the state of the block layer.  A section under `bcache.lock` or
`log.lock` is one step; `acquiresleep` is one step that waits for the sleep lock;
`iderw` is one step that transfers the whole block, which is what both drivers
(`ide.rs`, `memide.rs`) do once the request is served.

* `Buf`, `BState` — a buffer and the block layer.  `list` is the linked list read
  from `head.next`, most recently used first.
* `get`, `read`, `write`, `releaseBuf` — the interface of `bio.rs`.
* `logWrite`, `beginOp`, `endOp`, `writeLog`, `writeHead`, `installTrans`,
  `commit`, `readHead`, `recoverFromLog` — `log.rs`.

Three fields are not the kernel's: `last` remembers, for every block, the data its
most recent holder left in it, `base` what `last` was when the latest commit
finished, and `peak` how many blocks the log has ever held at once.  No program
reads them.
-/

namespace Xv6.Fs

open Lib

/-! ## State -/

/-- A buffer.  `valid` and `dirty` are the flags `B_VALID` and `B_DIRTY`; `lock`
is the sleep lock with its holder. -/
structure Buf (τ : Type) where
  dev : ℕ
  blockno : ℕ
  valid : Bool
  dirty : Bool
  refcnt : ℕ
  lock : Option τ
  data : Block

/-- The block layer. -/
structure BState (τ : Type) where
  buf : Fin NBUF → Buf τ
  /-- The buffers from `head.next` to `head.prev`. -/
  list : List (Fin NBUF)
  /-- The disk, by device and block number. -/
  disk : ℕ → ℕ → Block
  log : Log
  /-- What the latest holder of each block left in it. -/
  last : ℕ → ℕ → Block
  /-- `last` as it was when the latest commit finished. -/
  base : ℕ → ℕ → Block
  /-- The largest `lh.n` there has been. -/
  peak : ℕ

variable {τ : Type}

/-- The buffer caches this block. -/
def Buf.hasTag (b : Buf τ) (dev blockno : ℕ) : Bool :=
  decide (b.dev = dev) && decide (b.blockno = blockno)

/-- The buffer may be recycled. -/
def Buf.idle (b : Buf τ) : Bool := decide (b.refcnt = 0) && !b.dirty

/-- One more reference. -/
def Buf.addRef (x : Buf τ) : Buf τ := { x with refcnt := x.refcnt + 1 }

/-- Give the buffer to another block. -/
def Buf.recycle (dev blockno : ℕ) (x : Buf τ) : Buf τ :=
  { x with dev := dev, blockno := blockno, valid := false, dirty := false, refcnt := 1 }

/-- Replace one block of a block store. -/
def storeAt (m : ℕ → ℕ → Block) (dev b : ℕ) (d : Block) : ℕ → ℕ → Block :=
  Function.update m dev (Function.update (m dev) b d)

@[simp] theorem storeAt_self (m : ℕ → ℕ → Block) (dev b : ℕ) (d : Block) :
    storeAt m dev b d dev b = d := by
  simp [storeAt]

theorem storeAt_of_ne (m : ℕ → ℕ → Block) {dev b dev' b' : ℕ} (d : Block)
    (h : (dev', b') ≠ (dev, b)) : storeAt m dev b d dev' b' = m dev' b' := by
  by_cases hd : dev' = dev
  · subst hd
    have hb : b' ≠ b := fun hb => h (by rw [hb])
    simp [storeAt, hb]
  · simp [storeAt, hd]

namespace BState

/-- Change one buffer. -/
def modBuf (s : BState τ) (i : Fin NBUF) (f : Buf τ → Buf τ) : BState τ :=
  { s with buf := Function.update s.buf i (f (s.buf i)) }

/-- Store a block on the disk. -/
def setDisk (s : BState τ) (dev b : ℕ) (d : Block) : BState τ :=
  { s with disk := storeAt s.disk dev b d }

/-- Record what a holder left in a block. -/
def setLast (s : BState τ) (dev b : ℕ) (d : Block) : BState τ :=
  { s with last := storeAt s.last dev b d }

/-- Buffers are zero before `init` links them, each in front of the previous one. -/
def boot (disk : ℕ → ℕ → Block) (lg : Log) : BState τ where
  buf := fun _ =>
    { dev := 0, blockno := 0, valid := false, dirty := false, refcnt := 0, lock := none,
      data := .zero }
  list := (List.finRange NBUF).reverse
  disk := disk
  log := lg
  last := disk
  base := disk
  peak := lg.n

end BState

/-! ## `bio.rs` -/

/-- The section of `get` under `bcache.lock`: a buffer already caching the block,
else the least recently used clean and unreferenced one. -/
def getSection (dev b : ℕ) (s : BState τ) : Except String (Fin NBUF × BState τ) :=
  match s.list.find? fun i => (s.buf i).hasTag dev b with
  | some i => .ok (i, s.modBuf i .addRef)
  | none =>
      match s.list.reverse.find? fun i => (s.buf i).idle with
      | some i => .ok (i, s.modBuf i (.recycle dev b))
      | none => .error "bget: no buffers"

/-- `acquiresleep(&b.lock)`. -/
def acquiresleep (me : τ) (i : Fin NBUF) : Prog (BState τ) Unit :=
  .await (fun s => (s.buf i).lock.isNone) fun s => s.modBuf i fun x => { x with lock := some me }

/-- `releasesleep(&b.lock)`. -/
def releasesleep (i : Fin NBUF) : Prog (BState τ) Unit :=
  .change fun s => s.modBuf i fun x => { x with lock := none }

/-- `get`: find or recycle a buffer for the block and lock it. -/
def get (me : τ) (dev b : ℕ) : Prog (BState τ) (Fin NBUF) := do
  let i ← .critical (getSection dev b)
  acquiresleep me i
  return i

/-- One transfer: a dirty buffer is written to its block, any other is read from
it; the buffer ends valid and clean. -/
def iderwSection (i : Fin NBUF) (s : BState τ) : Except String (Unit × BState τ) :=
  let x := s.buf i
  if x.valid && !x.dirty then .error "iderw: nothing to do"
  else if x.dirty then
    .ok ((), (s.setDisk x.dev x.blockno x.data).modBuf i fun x =>
      { x with dirty := false, valid := true })
  else .ok ((), s.modBuf i fun x => { x with data := s.disk x.dev x.blockno, valid := true })

/-- `iderw`. -/
def iderw (i : Fin NBUF) : Prog (BState τ) Unit := .critical (iderwSection i)

/-- `read`: the locked buffer of a block, filled from the disk unless it is valid. -/
def read (me : τ) (dev b : ℕ) : Prog (BState τ) (Fin NBUF) := do
  let i ← get me dev b
  let valid ← .look fun s => (s.buf i).valid
  if valid then pure () else iderw i
  return i

/-- `write`: flag the buffer dirty and transfer it. -/
def write (i : Fin NBUF) : Prog (BState τ) Unit := do
  .panicIf (fun s => (s.buf i).lock.isNone) "bwrite"
  .change fun s => s.modBuf i fun x => { x with dirty := true }
  iderw i

/-- The section of `release_buf` under `bcache.lock`: drop the reference, and move
a buffer nobody references to the front of the list. -/
def putSection (i : Fin NBUF) (s : BState τ) : BState τ :=
  let s' := s.modBuf i fun x => { x with refcnt := x.refcnt - 1 }
  if (s'.buf i).refcnt = 0 then { s' with list := i :: s'.list.erase i } else s'

/-- `release_buf`, which dropping a `BufGuard` calls. -/
def releaseBuf (i : Fin NBUF) : Prog (BState τ) Unit := do
  .panicIf (fun s => (s.buf i).lock.isNone) "brelse"
  releasesleep i
  .change (putSection i)

/-- A holder changes the data of its buffer in place. -/
def modify (i : Fin NBUF) (f : Block → Block) : Prog (BState τ) Unit :=
  .change fun s =>
    (s.modBuf i fun x => { x with data := f x.data }).setLast (s.buf i).dev (s.buf i).blockno
      (f (s.buf i).data)

/-- The data of a buffer. -/
def dataOf (i : Fin NBUF) : Prog (BState τ) Block := .look fun s => (s.buf i).data

/-! ## The log header on disk -/

/-- The logged block numbers a header block lists. -/
def header (d : Block) : List ℕ := (List.range (d.word 0)).map fun i => d.word (i + 1)

/-- Write `n` and the first `n` entries into a header block, leaving the rest. -/
def putHeader (l : List ℕ) (d : Block) : Block := (d.setWord 0 l.length).putWords 1 l

/-! ## `log.rs` -/

/-- The locked part of `log_write`: record the block and pin its buffer. -/
def recordSection (i : Fin NBUF) (s : BState τ) : Except String (Unit × BState τ) :=
  match s.log.record (s.buf i).blockno with
  | some lg => .ok ((), { s with log := lg, peak := max s.peak lg.n }.modBuf i fun x =>
      { x with dirty := true })
  | none => .error "index out of bounds"

/-- `log_write`. -/
def logWrite (i : Fin NBUF) : Prog (BState τ) Unit := do
  .panicIf (fun s => s.log.tooBig) "too big a transaction"
  .panicIf (fun s => decide (s.log.outstanding < 1)) "log_write outside of trans"
  .critical (recordSection i)

/-- `begin_op`, with its sleeping loop as one wait. -/
def beginOp : Prog (BState τ) Unit :=
  .await (fun s => !s.log.mustWait) fun s => { s with log := s.log.enter }

/-- Copy block `src` to block `dst` for every entry of the log header, one after the
other.  `install_trans` and `write_log` are this loop in the two directions. -/
def copyBlocks (me : τ) (src dst : Log → ℕ → ℕ) : Prog (BState τ) Unit := do
  let n ← .look fun s => s.log.n
  .forEach (List.range n) fun tail => do
    let lg ← .look fun s => s.log
    let sbuf ← read me ROOTDEV (src lg tail)
    let dbuf ← read me ROOTDEV (dst lg tail)
    let d ← dataOf sbuf
    modify dbuf fun _ => d
    write dbuf
    releaseBuf dbuf
    releaseBuf sbuf

/-- The log block of entry `tail`. -/
def Log.copyOf (lg : Log) (tail : ℕ) : ℕ := lg.start + tail + 1

/-- The home block of entry `tail`. -/
def Log.home (lg : Log) (tail : ℕ) : ℕ := lg.block.getD tail 0

/-- `install_trans`: copy the logged blocks home. -/
def installTrans (me : τ) : Prog (BState τ) Unit := copyBlocks me Log.copyOf Log.home

/-- `read_head`: the header on disk becomes the header in memory. -/
def readHead (me : τ) : Prog (BState τ) Unit := do
  let lg ← .look fun s => s.log
  let buf ← read me ROOTDEV lg.start
  let d ← dataOf buf
  -- copying entry `LOGSIZE` is an index panic
  if LOGSIZE < d.word 0 then .panic "index out of bounds"
  else do
    .change fun s => { s with log := { s.log with block := header d } }
    releaseBuf buf

/-- `write_head`: the header in memory becomes the header on disk. -/
def writeHead (me : τ) : Prog (BState τ) Unit := do
  let lg ← .look fun s => s.log
  let buf ← read me ROOTDEV lg.start
  modify buf (putHeader lg.block)
  write buf
  releaseBuf buf

/-- `write_log`: copy the logged blocks from the cache to the log. -/
def writeLog (me : τ) : Prog (BState τ) Unit := copyBlocks me Log.home Log.copyOf

/-- `lh.n = 0`. -/
def clearLog : Prog (BState τ) Unit :=
  .change fun s => { s with log := { s.log with block := [] } }

/-- `commit`. -/
def commit (me : τ) : Prog (BState τ) Unit := do
  let n ← .look fun s => s.log.n
  if 0 < n then do
    writeLog me
    writeHead me
    installTrans me
    clearLog
    writeHead me
  else pure ()

/-- The first section of `end_op`: leave, and say whether this call commits. -/
def leaveSection (s : BState τ) : Except String (Bool × BState τ) :=
  if s.log.committing then .error "log.committing"
  else if s.log.leave.outstanding = 0 then
    .ok (true, { s with log := { s.log.leave with committing := true } })
  else .ok (false, { s with log := s.log.leave })

/-- The second section of `end_op`. -/
def finishSection (s : BState τ) : BState τ :=
  { s with log := { s.log with committing := false }, base := s.last }

/-- `end_op`. -/
def endOp (me : τ) : Prog (BState τ) Unit := do
  let doCommit ← .critical leaveSection
  if doCommit then do
    commit me
    .change finishSection
  else pure ()

/-- `recover_from_log`. -/
def recoverFromLog (me : τ) : Prog (BState τ) Unit := do
  readHead me
  installTrans me
  clearLog
  writeHead me

end Xv6.Fs
