import Xv6.Param
import Xv6.Lib.Chain
import Xv6.Lib.Fallible
import Xv6.Lib.Machine

/-!
# The queue of the IDE driver

`crates/drivers/src/ide.rs`: `iderw` appends a buffer to a queue that is linked through the
buffers and starts the disk if the queue was empty; `ideintr` takes the first buffer off the
queue, marks it valid and starts the disk on the next one.  `iderw` up to its first sleep,
`ideintr`, and the test that `iderw` makes when it wakes up are one step each.

Five fields are not the driver's: `asked` lists the buffers in the order of the calls of `iderw`,
`log` what has been sent to the disk and for which buffer, `raised` counts the interrupts of the
disk, one for each request it completes, `irqs` those that `ideintr` has served, and `calls` says
which call of `iderw` is under way for a buffer.

* `iderw`, `idestart`, `ideintr` — the driver.
* `Fifo` — the queue holds the requests that are not done, and the first of them is the one that
  was sent last.
* `ide_fifo` — first in, first out, once each.
-/

namespace Xv6.Drivers.Ide

open Lib Lib.Linked Function List

abbrev SECTOR_SIZE : ℕ := 512

abbrev IDE_CMD_READ : ℕ := 0x20

abbrev IDE_CMD_WRITE : ℕ := 0x30

/-- What the driver sees of a buffer; `valid` and `dirty` are the flags `B_VALID` and `B_DIRTY`. -/
structure Buf (δ : Type) where
  dev : ℕ
  blockno : ℕ
  valid : Bool
  dirty : Bool
  data : δ

/-- `(flags & (B_VALID | B_DIRTY)) == B_VALID`. -/
def Buf.synced {δ : Type} (x : Buf δ) : Bool := x.valid && !x.dirty

/-- What `idestart` writes to the ports 0x1F2 to 0x1F7, and the data of a write. -/
structure Command (δ : Type) where
  count : ℕ
  low : ℕ
  mid : ℕ
  high : ℕ
  drive : ℕ
  code : ℕ
  data : Option δ

/-- Why the machine stops. -/
inductive Stop where
  | panic (msg : String)
  /-- A walk along the queue that does not end. -/
  | spin
  deriving DecidableEq

/-- `idestart`. -/
def idestart {δ : Type} (x : Buf δ) : Except Stop (Command δ) :=
  if FSSIZE ≤ x.blockno then .error (.panic "incorrect blockno")
  else
    let sector := x.blockno * (BSIZE / SECTOR_SIZE)
    .ok {
      count := BSIZE / SECTOR_SIZE
      low := sector &&& 0xFF
      mid := (sector >>> 8) &&& 0xFF
      high := (sector >>> 16) &&& 0xFF
      drive := 0xE0 ||| ((x.dev &&& 1) <<< 4) ||| ((sector >>> 24) &&& 0x0F)
      code := if x.dirty then IDE_CMD_WRITE else IDE_CMD_READ
      data := if x.dirty then some x.data else none }

/-- The driver.  `q` is `IDE_QUEUE` with the links `qnext` of the buffers. -/
structure Driver (β δ : Type) where
  q : Linked β
  buf : β → Buf δ
  haveDisk1 : Bool
  asked : List β
  log : List (β × Command δ)
  raised : ℕ
  irqs : ℕ
  calls : β → Option ℕ

variable {β δ : Type} [DecidableEq β]

/-- `idestart(b)`, on record. -/
def start (s : Driver β δ) (b : β) : Except Stop (Driver β δ) := do
  let cmd ← idestart (s.buf b)
  pure { s with log := s.log ++ [(b, cmd)] }

/-- A buffer whose request is done.  `reply` is what `insl` reads, or nothing if `idewait` reports
an error. -/
def Buf.done (reply : Option δ) (x : Buf δ) : Buf δ :=
  { x with data := if x.dirty then x.data else reply.getD x.data, valid := true, dirty := false }

/-- `ideintr` behind its test of the queue. -/
def advance (s : Driver β δ) (b : β) (reply : Option δ) : Driver β δ :=
  { s with
    q := { s.q with head := s.q.next b }
    buf := update s.buf b ((s.buf b).done reply)
    irqs := s.irqs + 1 }

/-- `ideintr`. -/
def ideintr (reply : Option δ) (s : Driver β δ) : Except Stop (Driver β δ) :=
  match s.q.head with
  | none => .ok s
  | some b =>
    match (advance s b reply).q.head with
    | none => .ok (advance s b reply)
    | some b' => start (advance s b reply) b'

/-- The buffer is at the end of the queue. -/
def enqueue (s : Driver β δ) (b : β) (q : Linked β) : Driver β δ :=
  { s with
    q := q
    asked := s.asked ++ [b]
    calls := update s.calls b (some s.asked.length) }

/-- The test of `iderw` when it wakes up: it returns, or sleeps again. -/
def resume (b : β) (s : Driver β δ) : Driver β δ :=
  if (s.buf b).synced then { s with calls := update s.calls b none } else s

variable [Fintype β]

/-- `iderw` up to its first sleep. -/
def iderw (b : β) (s : Driver β δ) : Except Stop (Driver β δ) :=
  if (s.buf b).synced then .error (.panic "iderw: nothing to do")
  else if (s.buf b).dev ≠ 0 ∧ s.haveDisk1 = false then .error (.panic "iderw: disk 1 not present")
  else
    let q := s.q.store (.next b) none
    match q.seek (Fintype.card β + 1) .head with
    | none => .error .spin
    | some pp =>
      let s := enqueue s b (q.store pp (some b))
      if s.q.head = some b then start s b else .ok s

/-- A process calls `iderw`, the disk completes a request, its interrupt is served, a process in
`iderw` wakes up, or somebody who has a buffer locked uses it. -/
inductive Act (β δ : Type) where
  | rw (b : β)
  | complete
  | intr (reply : Option δ)
  | wake (b : β)
  | use (b : β) (x : Buf δ)

def step (s : Driver β δ) : Act β δ → Option (Driver β δ)
  | .rw b => (iderw b s).toOption
  | .complete => some { s with raised := s.raised + 1 }
  | .intr reply => (ideintr reply s).toOption
  | .wake b => some (resume b s)
  | .use b x => some { s with buf := update s.buf b x }

/-- A buffer is used by one process at a time: nobody else touches it during `iderw`.  The disk
interrupts once for each request it was sent. -/
def Allowed (s : Driver β δ) : Act β δ → Prop
  | .rw b => s.calls b = none
  | .complete => s.raised < s.log.length
  | .intr _ => s.irqs < s.raised
  | .wake b => s.calls b ≠ none
  | .use b _ => s.calls b = none

instance (s : Driver β δ) (a : Act β δ) : Decidable (Allowed s a) := by
  cases a <;> unfold Allowed <;> infer_instance

/-- The driver before the first call, whatever is in the buffers. -/
def boot (buf : β → Buf δ) (haveDisk1 : Bool) : Driver β δ :=
  ⟨⟨none, fun _ => none⟩, buf, haveDisk1, [], [], 0, 0, fun _ => none⟩

/-! ## First in, first out -/

/-- The queue holds the requests that are not done, in the order of the calls, and each of them has
its call waiting for it. -/
structure Queued (s : Driver β δ) : Prop where
  le : s.irqs ≤ s.asked.length
  queue : s.q.Lists (s.asked.drop s.irqs)
  /-- A call under way is on record, and its buffer in step with the disk exactly if it is done. -/
  call : ∀ b i, s.calls b = some i → s.asked[i]? = some b ∧ ((s.buf b).synced = true ↔ i < s.irqs)
  waits : ∀ i b, s.irqs ≤ i → s.asked[i]? = some b → s.calls b = some i

/-- The disk was sent the requests that are done and the first of the others. -/
structure Fifo (s : Driver β δ) : Prop extends Queued s where
  log : s.log.map Prod.fst = s.asked.take (s.irqs + 1)
  /-- It works on what is in the buffer. -/
  current : ∀ b cmd, s.log[s.irqs]? = some (b, cmd) → idestart (s.buf b) = .ok cmd

section Queue

variable {s s' : Driver β δ} {b : β}

omit [DecidableEq β] [Fintype β] in
theorem Queued.head (h : Queued s) : s.q.head = s.asked[s.irqs]? := by
  rw [h.queue.chain.head?, head?_drop]

omit [DecidableEq β] [Fintype β] in
theorem Queued.not_mem (h : Queued s) (hb : s.calls b = none) : b ∉ s.asked.drop s.irqs := by
  intro hmem
  obtain ⟨i, hi⟩ := mem_iff_getElem?.1 hmem
  rw [getElem?_drop] at hi
  rw [h.waits _ b (Nat.le_add_right _ _) hi] at hb
  cases hb

theorem Queued.seek (h : Queued s) (hb : s.calls b = none) :
    (s.q.store (.next b) none).seek (Fintype.card β + 1) .head =
      some (lastSlot (s.asked.drop s.irqs)) :=
  (h.queue.unlink (h.not_mem hb) none).seek (Nat.lt_succ_of_le h.queue.nodup.length_le_card)

omit [Fintype β] in
theorem Queued.enqueue (h : Queued s) (hb : s.calls b = none) (hs : (s.buf b).synced = false) :
    Queued (enqueue s b
      ((s.q.store (.next b) none).store (lastSlot (s.asked.drop s.irqs)) (some b))) where
  le := by
    change s.irqs ≤ (s.asked ++ [b]).length
    rw [length_append]
    exact le_trans h.le (Nat.le_add_right _ _)
  queue := by
    change Lists _ ((s.asked ++ [b]).drop s.irqs)
    rw [drop_append_of_le_length h.le]
    have hnot := h.not_mem hb
    exact (h.queue.unlink hnot none).append hnot (update_self ..)
  call b' i hi := by
    change update s.calls b (some s.asked.length) b' = some i at hi
    change (s.asked ++ [b])[i]? = some b' ∧ ((s.buf b').synced = true ↔ i < s.irqs)
    by_cases hbb : b' = b
    · subst hbb
      rw [update_self] at hi
      obtain rfl := Option.some.inj hi
      have hle := h.le
      refine ⟨getElem?_concat_length, ?_⟩
      rw [hs]
      exact ⟨fun hf => Bool.noConfusion hf, fun hlt => by omega⟩
    · rw [update_of_ne hbb] at hi
      obtain ⟨hget, hdone⟩ := h.call b' i hi
      refine ⟨?_, hdone⟩
      rw [getElem?_append_left (List.getElem?_eq_some_iff.1 hget).1]
      exact hget
  waits i b' hirq hi := by
    change (s.asked ++ [b])[i]? = some b' at hi
    change update s.calls b (some s.asked.length) b' = some i
    rcases Nat.lt_or_ge i s.asked.length with hlt | hge
    · rw [getElem?_append_left hlt] at hi
      have hcall := h.waits i b' hirq hi
      have hne : b' ≠ b := fun he => by
        rw [he, hb] at hcall
        cases hcall
      rw [update_of_ne hne, hcall]
    · obtain ⟨hlt, hget⟩ := List.getElem?_eq_some_iff.1 hi
      rw [length_append, length_singleton] at hlt
      obtain rfl : i = s.asked.length := by omega
      rw [getElem?_concat_length] at hi
      rw [Option.some.inj hi, update_self]

omit [Fintype β] in
theorem Queued.advance (h : Queued s) (hb : s.asked[s.irqs]? = some b) (reply : Option δ) :
    Queued (advance s b reply) where
  le := (List.getElem?_eq_some_iff.1 hb).1
  queue := by
    obtain ⟨hlt, rfl⟩ := List.getElem?_eq_some_iff.1 hb
    have hq := h.queue
    rw [drop_eq_getElem_cons hlt] at hq
    exact hq.pop
  call b' i hi := by
    obtain ⟨hget, hdone⟩ := h.call b' i hi
    refine ⟨hget, ?_⟩
    change (update s.buf b ((s.buf b).done reply) b').synced = true ↔ i < s.irqs + 1
    by_cases hbb : b' = b
    · subst hbb
      change s.calls b' = some i at hi
      rw [h.waits s.irqs b' le_rfl hb] at hi
      obtain rfl := Option.some.inj hi
      rw [update_self]
      exact ⟨fun _ => Nat.lt_succ_self _, fun _ => rfl⟩
    · have hne : i ≠ s.irqs := by
        rintro rfl
        rw [hb] at hget
        exact hbb (Option.some.inj hget).symm
      rw [update_of_ne hbb, hdone]
      omega
  waits i b' hirq hi := h.waits i b' (le_trans (Nat.le_succ _) hirq) hi

omit [DecidableEq β] [Fintype β] in
theorem start_eq_ok (hok : start s b = .ok s') :
    ∃ cmd, idestart (s.buf b) = .ok cmd ∧ s' = { s with log := s.log ++ [(b, cmd)] } := by
  obtain ⟨cmd, hcmd, hok⟩ := bind_eq_ok.1 hok
  cases hok
  exact ⟨cmd, hcmd, rfl⟩

omit [DecidableEq β] [Fintype β] in
theorem start_ne_spin (s : Driver β δ) (b : β) : start s b ≠ .error .spin := by
  intro h
  unfold start at h
  cases hcmd : idestart (s.buf b) with
  | ok cmd =>
    rw [hcmd] at h
    cases h
  | error e =>
    rw [hcmd] at h
    cases h
    unfold idestart at hcmd
    split_ifs at hcmd
    cases hcmd

omit [DecidableEq β] [Fintype β] in
/-- The disk is sent the next request. -/
theorem Queued.started (h : Queued s) {cmd : Command δ} (hb : s.asked[s.irqs]? = some b)
    (hlog : s.log.map Prod.fst = s.asked.take s.irqs) (hcmd : idestart (s.buf b) = .ok cmd) :
    Fifo { s with log := s.log ++ [(b, cmd)] } where
  toQueued := ⟨h.le, h.queue, h.call, h.waits⟩
  log := by
    change (s.log ++ [(b, cmd)]).map Prod.fst = s.asked.take (s.irqs + 1)
    rw [map_append, hlog, take_add_one, hb]
    rfl
  current b' cmd' hget := by
    have hlen : s.log.length = s.irqs := by
      rw [← length_map (f := Prod.fst), hlog, length_take, Nat.min_eq_left h.le]
    change (s.log ++ [(b, cmd)])[s.irqs]? = some (b', cmd') at hget
    rw [← hlen, getElem?_concat_length] at hget
    obtain ⟨rfl, rfl⟩ := Prod.mk.inj (Option.some.inj hget)
    exact hcmd

end Queue

namespace Fifo

variable {s s' : Driver β δ} {b : β}

omit [DecidableEq β] [Fintype β] in
theorem init (buf : β → Buf δ) (haveDisk1 : Bool) : Fifo (boot buf haveDisk1) where
  le := le_rfl
  queue := ⟨rfl, nodup_nil⟩
  log := rfl
  call b i h := by cases h
  waits i b _ h := by cases h
  current b cmd h := by cases h

theorem iderw (h : Fifo s) (hb : s.calls b = none) (hok : iderw b s = .ok s') : Fifo s' := by
  unfold Ide.iderw at hok
  split_ifs at hok with hsync hdev
  have hq := h.toQueued.enqueue hb (Bool.eq_false_iff.2 hsync)
  simp only [h.seek hb] at hok
  have hle := h.le
  split_ifs at hok with hfirst
  · -- the queue was empty
    rw [hq.head] at hfirst
    have hempty : s.irqs = s.asked.length := by
      by_contra hne
      have hlt : s.irqs < s.asked.length := lt_of_le_of_ne hle hne
      change (s.asked ++ [b])[s.irqs]? = some b at hfirst
      rw [getElem?_append_left hlt] at hfirst
      rw [h.waits _ b le_rfl hfirst] at hb
      cases hb
    obtain ⟨cmd, hcmd, rfl⟩ := start_eq_ok hok
    refine hq.started hfirst ?_ hcmd
    change s.log.map Prod.fst = (s.asked ++ [b]).take s.irqs
    rw [h.log, hempty, take_left', take_of_length_le (Nat.le_succ _)]
    rfl
  · -- the disk is at work on another request
    rw [hq.head] at hfirst
    have hlt : s.irqs < s.asked.length := by
      by_contra hge
      obtain hempty : s.irqs = s.asked.length := by omega
      refine hfirst ?_
      change (s.asked ++ [b])[s.irqs]? = some b
      rw [hempty, getElem?_concat_length]
    cases hok
    refine ⟨hq, ?_, h.current⟩
    change s.log.map Prod.fst = (s.asked ++ [b]).take (s.irqs + 1)
    rw [h.log, take_append_of_le_length hlt]

omit [Fintype β] in
theorem ideintr (h : Fifo s) {reply : Option δ} (hok : ideintr reply s = .ok s') : Fifo s' := by
  unfold Ide.ideintr at hok
  cases hhead : s.q.head with
  | none =>
    rw [hhead] at hok
    cases hok
    exact h
  | some b =>
    rw [hhead] at hok
    rw [h.head] at hhead
    have hq := h.toQueued.advance hhead reply
    cases hnext : (advance s b reply).q.head with
    | none =>
      simp only [hnext] at hok
      cases hok
      rw [hq.head] at hnext
      have hlen : s.asked.length ≤ s.irqs + 1 := List.getElem?_eq_none_iff.1 hnext
      refine ⟨hq, ?_, fun b' cmd hget => ?_⟩
      · change s.log.map Prod.fst = s.asked.take (s.irqs + 1 + 1)
        rw [h.log, take_of_length_le hlen, take_of_length_le (Nat.le_succ_of_le hlen)]
      · have hlog : s.log.length ≤ s.irqs + 1 := by
          rw [← length_map (f := Prod.fst), h.log]
          exact length_take_le _ _
        change s.log[s.irqs + 1]? = _ at hget
        rw [getElem?_eq_none hlog] at hget
        cases hget
    | some b' =>
      simp only [hnext] at hok
      rw [hq.head] at hnext
      obtain ⟨cmd, hcmd, rfl⟩ := start_eq_ok hok
      exact hq.started hnext h.log hcmd

omit [Fintype β] in
theorem use (h : Fifo s) (hb : s.calls b = none) (x : Buf δ) :
    Fifo { s with buf := update s.buf b x } where
  le := h.le
  queue := h.queue
  log := h.log
  call b' i hi := by
    have hne : b' ≠ b := fun he => by
      change s.calls b' = some i at hi
      rw [he, hb] at hi
      cases hi
    change _ ∧ ((update s.buf b x b').synced = true ↔ _)
    rw [update_of_ne hne]
    exact h.call b' i hi
  waits := h.waits
  current b' cmd hget := by
    have hfst : s.asked[s.irqs]? = some b' := by
      have hmap := congrArg (Option.map Prod.fst) hget
      rw [← getElem?_map] at hmap
      change (s.log.map Prod.fst)[s.irqs]? = some b' at hmap
      rwa [h.log, getElem?_take_of_lt (Nat.lt_succ_self _)] at hmap
    have hne : b' ≠ b := fun he => by
      have hcall := h.waits s.irqs b' le_rfl hfst
      rw [he, hb] at hcall
      cases hcall
    change idestart (update s.buf b x b') = _
    rw [update_of_ne hne]
    exact h.current b' cmd hget

omit [Fintype β] in
theorem resume (h : Fifo s) : Fifo (resume b s) := by
  unfold Ide.resume
  split_ifs with hsync
  · refine ⟨⟨h.le, h.queue, fun b' i hi => ?_, fun i b' hirq hi => ?_⟩, h.log, h.current⟩
    · change update s.calls b none b' = some i at hi
      have hne : b' ≠ b := fun he => by
        rw [he, update_self] at hi
        cases hi
      rw [update_of_ne hne] at hi
      exact h.call b' i hi
    · have hcall := h.waits i b' hirq hi
      have hne : b' ≠ b := fun he => by
        subst he
        have hlt := (h.call b' i hcall).2.1 hsync
        change s.irqs ≤ i at hirq
        omega
      change update s.calls b none b' = some i
      rw [update_of_ne hne, hcall]
  · exact h

theorem step (h : Fifo s) {a : Act β δ} (hok : Allowed s a) (hs : step s a = some s') :
    Fifo s' := by
  cases a with
  | rw b =>
    exact h.iderw hok (toOption_eq_some.1 hs)
  | complete =>
    cases hs
    exact ⟨⟨h.le, h.queue, h.call, h.waits⟩, h.log, h.current⟩
  | intr reply =>
    exact h.ideintr (toOption_eq_some.1 hs)
  | wake b =>
    cases hs
    exact h.resume
  | use b x =>
    cases hs
    exact h.use hok x

end Fifo

/-- The interrupts served have been raised, one for each request sent. -/
def Raised (s : Driver β δ) : Prop := s.irqs ≤ s.raised ∧ s.raised ≤ s.log.length

section Raised

variable {s s' : Driver β δ} {b : β}

omit [DecidableEq β] [Fintype β] in
theorem Raised.start (h : Raised s) (hok : start s b = .ok s') : Raised s' := by
  obtain ⟨cmd, -, rfl⟩ := start_eq_ok hok
  refine ⟨h.1, le_trans h.2 ?_⟩
  rw [length_append]
  exact Nat.le_add_right _ _

theorem Raised.iderw (h : Raised s) (hok : iderw b s = .ok s') : Raised s' := by
  unfold Ide.iderw at hok
  split_ifs at hok
  dsimp only at hok
  split at hok
  · cases hok
  · split_ifs at hok
    · exact Raised.start (s := enqueue s b _) h hok
    · cases hok
      exact h

omit [Fintype β] in
theorem Raised.ideintr (h : Raised s) (hlt : s.irqs < s.raised) {reply : Option δ}
    (hok : ideintr reply s = .ok s') : Raised s' := by
  unfold Ide.ideintr at hok
  split at hok
  · cases hok
    exact h
  · next b _ =>
    have hadv : Raised (advance s b reply) := ⟨hlt, h.2⟩
    split at hok
    · cases hok
      exact hadv
    · exact hadv.start hok

theorem Raised.step (h : Raised s) {a : Act β δ} (hok : Allowed s a) (hs : step s a = some s') :
    Raised s' := by
  cases a with
  | rw b => exact h.iderw (toOption_eq_some.1 hs)
  | complete =>
    cases hs
    exact ⟨le_trans h.1 (Nat.le_succ _), hok⟩
  | intr reply => exact h.ideintr hok (toOption_eq_some.1 hs)
  | wake b =>
    cases hs
    unfold resume
    split_ifs
    · exact h
    · exact h
  | use b x =>
    cases hs
    exact h

end Raised

/-- The command reads or writes the sectors of the buffer's block: LBA mode, the drive of the
device, the number of the first sector in four pieces, and the data if the buffer is dirty. -/
structure Buf.Asks (x : Buf δ) (cmd : Command δ) : Prop where
  count : cmd.count = BSIZE / SECTOR_SIZE
  bytes : cmd.low < 2 ^ 8 ∧ cmd.mid < 2 ^ 8 ∧ cmd.high < 2 ^ 8 ∧ cmd.drive < 2 ^ 8
  sector : cmd.low + 2 ^ 8 * cmd.mid + 2 ^ 16 * cmd.high + 2 ^ 24 * (cmd.drive % 16) =
    x.blockno * (BSIZE / SECTOR_SIZE)
  drive : cmd.drive / 16 = 0xE + x.dev % 2
  code : cmd.code = if x.dirty then IDE_CMD_WRITE else IDE_CMD_READ
  data : cmd.data = if x.dirty then some x.data else none

omit [DecidableEq β] [Fintype β] in
theorem asks_of_idestart {x : Buf δ} {cmd : Command δ} (h : idestart x = .ok cmd) : x.Asks cmd := by
  unfold idestart at h
  by_cases hbig : FSSIZE ≤ x.blockno
  · rw [if_pos hbig] at h
    cases h
  rw [if_neg hbig] at h
  cases h
  have hlt : x.blockno < 2000 := not_le.1 hbig
  have hone : x.blockno * (BSIZE / SECTOR_SIZE) = x.blockno := Nat.mul_one _
  have hbyte : ∀ n : ℕ, n &&& 0xFF = n % 2 ^ 8 := fun n => Nat.and_two_pow_sub_one_eq_mod n 8
  -- the sector has less than sixteen bits
  have hmid : x.blockno >>> 8 < 2 ^ 8 := by
    rw [Nat.shiftRight_eq_div_pow]
    omega
  have hhigh : x.blockno >>> 16 = 0 := by
    rw [Nat.shiftRight_eq_div_pow]
    omega
  have htop : x.blockno >>> 24 = 0 := by
    rw [Nat.shiftRight_eq_div_pow]
    omega
  have hdrive : 0xE0 ||| ((x.dev &&& 1) <<< 4) ||| ((x.blockno >>> 24) &&& 0x0F) =
      16 * (0xE + x.dev % 2) := by
    rw [htop, Nat.and_one_is_mod]
    rcases Nat.mod_two_eq_zero_or_one x.dev with hd | hd <;> rw [hd] <;> rfl
  refine ⟨rfl, ?_, ?_, ?_, rfl, rfl⟩
  · simp only [hone, hdrive, hbyte, hhigh]
    omega
  · simp only [hone, hdrive, hbyte, hhigh, Nat.mod_eq_of_lt hmid]
    rw [Nat.shiftRight_eq_div_pow]
    omega
  · simp only [hone, hdrive]
    omega

/-- **First in, first out, once each.**  In every state that any calls, completions, interrupts and
wake-ups lead to: the request the disk is at work on is the head of the queue, and what it was sent
asks for the sectors of that buffer's block, with the data if it is a write; the queue holds the
calls that are not done, in their order; the disk was sent one request for each call, in their
order, up to the head; `iderw` comes back from a call only if the disk has completed that very
request, with the buffer valid and clean; and the walk to the end of the queue ends. -/
theorem ide_fifo (buf : β → Buf δ) (haveDisk1 : Bool) {s : Driver β δ}
    (h : Reach step Allowed (boot buf haveDisk1) s) :
    (s.log.map Prod.fst)[s.irqs]? = s.q.head ∧
    (∀ b cmd, s.log[s.irqs]? = some (b, cmd) → (s.buf b).Asks cmd) ∧
    s.q.Lists (s.asked.drop s.irqs) ∧
    s.log.map Prod.fst = s.asked.take (s.irqs + 1) ∧
    (∀ b i, s.calls b = some i → (resume b s).calls b = none →
      i < s.raised ∧ s.asked[i]? = some b ∧ (s.buf b).valid = true ∧ (s.buf b).dirty = false) ∧
    ∀ b, s.calls b = none → iderw b s ≠ .error .spin := by
  have hf : Fifo s := h.invariant (Fifo.init buf haveDisk1) fun _ _ _ hs hok => hs.step hok
  have hr : Raised s := h.invariant (I := Raised) ⟨le_rfl, le_rfl⟩ fun _ _ _ hs hok => hs.step hok
  refine ⟨?_, fun b cmd hcmd => asks_of_idestart (hf.current b cmd hcmd), hf.queue, hf.log,
    fun b i hi hret => ?_, fun b hb hspin => ?_⟩
  · rw [hf.log, getElem?_take_of_lt (Nat.lt_succ_self _), hf.head]
  · obtain ⟨hget, hdone⟩ := hf.call b i hi
    unfold resume at hret
    split_ifs at hret with hsync
    · have hflags : (s.buf b).valid = true ∧ (s.buf b).dirty = false := by
        simpa [Buf.synced] using hsync
      exact ⟨lt_of_lt_of_le (hdone.1 hsync) hr.1, hget, hflags⟩
    · rw [hi] at hret
      cases hret
  · unfold iderw at hspin
    simp only [hf.seek hb] at hspin
    split_ifs at hspin
    · cases hspin
    · cases hspin
    · exact start_ne_spin _ b hspin

/-- Two requests: the second one is asked for while the disk is at work on the first. -/
def twoRequests (b b' : Fin 2) : List (Act (Fin 2) ℕ) :=
  [.rw b, .rw b', .complete, .intr (some 7), .wake b, .complete, .intr (some 8)]

theorem ide_fifo_two : ∃ s : Driver (Fin 2) ℕ,
    Reach step Allowed (boot (fun b => ⟨0, b.val, false, false, 0⟩) false) s ∧
    s.log.map Prod.fst = [1, 0] ∧ s.q.head = none ∧ s.calls 1 = none := by
  have hrun : ((exec step (fun s a => decide (Allowed s a))
      (boot (fun b => ⟨0, b.val, false, false, 0⟩) false) (twoRequests 1 0)).map
      fun s => (s.asked, s.irqs, s.calls 1)) = some ([1, 0], 2, none) := by decide +kernel
  obtain ⟨s, hexec, hs⟩ := Option.map_eq_some_iff.1 hrun
  obtain ⟨hasked, hirqs, hcalls⟩ : s.asked = [1, 0] ∧ s.irqs = 2 ∧ s.calls 1 = none := by
    simpa using hs
  have hreach : Reach step Allowed (boot (fun b => ⟨0, b.val, false, false, 0⟩) false) s :=
    reach_of_exec (fun _ _ h => of_decide_eq_true h) .init hexec
  obtain ⟨hhead, -, -, hlog, -⟩ := ide_fifo _ _ hreach
  rw [hlog, hasked, hirqs] at hhead
  refine ⟨s, hreach, ?_, hhead.symm, hcalls⟩
  rw [hlog, hasked, hirqs]
  rfl

end Xv6.Drivers.Ide
