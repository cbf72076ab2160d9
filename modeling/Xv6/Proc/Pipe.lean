import Xv6.Param
import Xv6.Lib.Monitor

/-!
# Pipes

`pipewrite`, `piperead` and `pipeclose` of `crates/fs/src/pipe.rs`.  A call is a sequence of
sections under the pipe's lock, cut where it goes to sleep; the counters are taken modulo
`2 ^ 32`.  Two lists record the bytes stored and the bytes taken so far, in order.

* `pipe_delivers` — the bytes taken are those stored, once and in order.
* `asleep_has_reason` — readers sleep on an empty pipe and writers on a full one, as long as
  no writer gives up on a full pipe right after filling it.
-/

namespace Xv6.Proc

open Lib Lib.Monitor List Function

/-- `struct Pipe`, with the bytes stored and taken so far, and who has been killed. -/
structure Pipe (P : Type) where
  /-- The circular buffer. -/
  data : ℕ → UInt8
  /-- Bytes read, modulo `2 ^ 32`. -/
  nread : ℕ
  /-- Bytes written, modulo `2 ^ 32`. -/
  nwrite : ℕ
  /-- The read end is open. -/
  readopen : Bool
  /-- The write end is open. -/
  writeopen : Bool
  /-- `my_proc_killed()` of each process. -/
  killed : P → Bool
  /-- The bytes stored so far. -/
  stored : List UInt8
  /-- The bytes taken so far. -/
  taken : List UInt8

/-- The channels `&nread` and `&nwrite`. -/
inductive Chan where
  /-- Readers sleep here. -/
  | nread
  /-- Writers sleep here. -/
  | nwrite
  deriving DecidableEq

/-- A call, or what is left of it. -/
inductive Call where
  /-- `pipewrite` of `n` bytes, these still to be stored. -/
  | write (n : ℕ) (bytes : List UInt8)
  /-- `piperead` of up to `n` bytes. -/
  | read (n : ℤ)
  /-- `pipeclose`. -/
  | close (writable : Bool)

namespace Pipe

variable {P : Type}

/-- `is_full`. -/
def isFull (s : Pipe P) : Bool := s.nwrite == (s.nread + PIPESIZE) % 2 ^ 32

/-- `is_empty`. -/
def isEmpty (s : Pipe P) : Bool := s.nread == s.nwrite

/-- Store one byte. -/
def put (s : Pipe P) (b : UInt8) : Pipe P :=
  { s with
    data := update s.data (s.nwrite % PIPESIZE) b
    nwrite := (s.nwrite + 1) % 2 ^ 32
    stored := s.stored ++ [b] }

/-- Take one byte. -/
def take (s : Pipe P) : Pipe P :=
  { s with
    nread := (s.nread + 1) % 2 ^ 32
    taken := s.taken ++ [s.data (s.nread % PIPESIZE)] }

/-- The loop of `pipewrite` up to the next sleep: what is left when the pipe is full. -/
def fill : List UInt8 → Pipe P → Pipe P × List UInt8
  | [], s => (s, [])
  | b :: bs, s => if s.isFull then (s, b :: bs) else fill bs (s.put b)

/-- The copy loop of `piperead`, with a bound on the bytes left. -/
def drain : ℕ → ℕ → Pipe P → Pipe P × ℕ
  | 0, count, s => (s, count)
  | n + 1, count, s => if s.isEmpty then (s, count) else drain n (count + 1) s.take

/-- `pipewrite`, from the point where it has the lock. -/
def pipewrite (p : P) (n : ℕ) (bytes : List UInt8) (s : Pipe P) : Outcome (Pipe P) Chan Call ℤ :=
  match fill bytes s with
  | (s', []) => ⟨s', [.nread], .leave n⟩
  | (s', rest) =>
    if !s'.readopen || s'.killed p then ⟨s', [], .leave (-1)⟩
    else ⟨s', [.nread], .sleep .nwrite (.write n rest)⟩

/-- `piperead`, from the point where it has the lock. -/
def piperead (p : P) (n : ℤ) (s : Pipe P) : Outcome (Pipe P) Chan Call ℤ :=
  if s.isEmpty && s.writeopen then
    if s.killed p then ⟨s, [], .leave (-1)⟩ else ⟨s, [], .sleep .nread (.read n)⟩
  else
    let r := drain n.toNat 0 s
    ⟨r.1, [.nwrite], .leave r.2⟩

/-- `pipeclose`. -/
def pipeclose (writable : Bool) (s : Pipe P) : Outcome (Pipe P) Chan Call ℤ :=
  if writable then ⟨{ s with writeopen := false }, [.nread], .leave 0⟩
  else ⟨{ s with readopen := false }, [.nwrite], .leave 0⟩

/-- The calls on a pipe; `kill` sets the flag of a process and rouses it. -/
def text [DecidableEq P] : Text P (Pipe P) Chan Call ℤ where
  section_ p k s :=
    match k with
    | .write n bytes => pipewrite p n bytes s
    | .read n => piperead p n s
    | .close writable => pipeclose writable s
  rouse p s := { s with killed := update s.killed p true }

/-- A pipe as `pipealloc` makes it. -/
structure Fresh (s : Pipe P) : Prop where
  /-- No bytes read. -/
  nread : s.nread = 0
  /-- No bytes written. -/
  nwrite : s.nwrite = 0
  /-- Nothing recorded. -/
  stored : s.stored = []
  /-- Nothing recorded. -/
  taken : s.taken = []

/-! ## Once and in order -/

/-- The counters count the bytes recorded, and the buffer holds those not yet taken. -/
structure Sound (s : Pipe P) : Prop where
  /-- What `nread` counts. -/
  nread : s.nread = s.taken.length % 2 ^ 32
  /-- What `nwrite` counts. -/
  nwrite : s.nwrite = s.stored.length % 2 ^ 32
  /-- No more are taken than stored. -/
  le : s.taken.length ≤ s.stored.length
  /-- No more are kept than there is room for. -/
  room : s.stored.length ≤ s.taken.length + PIPESIZE
  /-- The bytes taken are the first ones stored. -/
  order : s.taken = s.stored.take s.taken.length
  /-- The others are in the buffer. -/
  kept : ∀ i, s.taken.length ≤ i → i < s.stored.length → s.stored[i]? = some (s.data (i % PIPESIZE))

variable {s : Pipe P}

theorem Fresh.sound (h : s.Fresh) : s.Sound where
  nread := by rw [h.nread, h.taken]; rfl
  nwrite := by rw [h.nwrite, h.stored]; rfl
  le := by rw [h.taken, h.stored]
  room := by rw [h.stored]; exact Nat.zero_le _
  order := by rw [h.taken, h.stored]; rfl
  kept i _ hi := by
    rw [h.stored] at hi
    exact absurd hi (Nat.not_lt_zero i)

theorem Sound.isFull_iff (h : s.Sound) :
    s.isFull = true ↔ s.stored.length = s.taken.length + PIPESIZE := by
  have hle := h.le
  have hroom : s.stored.length ≤ s.taken.length + 512 := h.room
  rw [isFull, beq_iff_eq, h.nread, h.nwrite]
  change _ = (_ + 512) % _ ↔ _ = _ + 512
  omega

theorem Sound.isEmpty_iff (h : s.Sound) : s.isEmpty = true ↔ s.stored.length = s.taken.length := by
  have hle := h.le
  have hroom : s.stored.length ≤ s.taken.length + 512 := h.room
  rw [isEmpty, beq_iff_eq, h.nread, h.nwrite]
  omega

theorem Sound.put (h : s.Sound) (hfull : s.isFull = false) (b : UInt8) : (s.put b).Sound := by
  have hle := h.le
  have hroom : s.stored.length ≤ s.taken.length + 512 := h.room
  have hne : s.stored.length ≠ s.taken.length + 512 := fun hc => by
    rw [h.isFull_iff.2 hc] at hfull
    cases hfull
  have hpos : s.nwrite % PIPESIZE = s.stored.length % PIPESIZE := by
    rw [h.nwrite]
    exact Nat.mod_mod_of_dvd _ (by decide)
  refine ⟨h.nread, ?_, ?_, ?_, ?_, ?_⟩
  · change (s.nwrite + 1) % 2 ^ 32 = (s.stored ++ [b]).length % 2 ^ 32
    rw [h.nwrite, length_append, length_singleton]
    omega
  · change s.taken.length ≤ (s.stored ++ [b]).length
    rw [length_append]
    omega
  · change (s.stored ++ [b]).length ≤ s.taken.length + 512
    rw [length_append, length_singleton]
    omega
  · change s.taken = (s.stored ++ [b]).take s.taken.length
    rw [take_append_of_le_length hle]
    exact h.order
  · intro i hi hlt
    change i < (s.stored ++ [b]).length at hlt
    change (s.stored ++ [b])[i]? = some (update s.data (s.nwrite % PIPESIZE) b
      (i % PIPESIZE))
    rw [length_append, length_singleton] at hlt
    rw [hpos]
    by_cases hlast : i = s.stored.length
    · rw [hlast, update_self, getElem?_concat_length]
    · have hpi : i % PIPESIZE ≠ s.stored.length % PIPESIZE := by
        change i % 512 ≠ s.stored.length % 512
        change s.taken.length ≤ i at hi
        omega
      rw [update_of_ne hpi, getElem?_append_left (by omega)]
      exact h.kept i hi (by omega)

theorem Sound.take (h : s.Sound) (hempty : s.isEmpty = false) : s.take.Sound := by
  have hle := h.le
  have hroom : s.stored.length ≤ s.taken.length + 512 := h.room
  have hne : s.stored.length ≠ s.taken.length := fun hc => by
    rw [h.isEmpty_iff.2 hc] at hempty
    cases hempty
  have hpos : s.nread % PIPESIZE = s.taken.length % PIPESIZE := by
    rw [h.nread]
    exact Nat.mod_mod_of_dvd _ (by decide)
  have hbyte := h.kept s.taken.length le_rfl (by omega)
  refine ⟨?_, h.nwrite, ?_, ?_, ?_, ?_⟩
  · change (s.nread + 1) % 2 ^ 32 = (s.taken ++ [_]).length % 2 ^ 32
    rw [h.nread, length_append, length_singleton]
    omega
  · change (s.taken ++ [_]).length ≤ s.stored.length
    rw [length_append, length_singleton]
    omega
  · change s.stored.length ≤ (s.taken ++ [_]).length + 512
    rw [length_append, length_singleton]
    omega
  · change s.taken ++ [s.data (s.nread % PIPESIZE)] = s.stored.take (s.taken ++ [_]).length
    rw [length_append, length_singleton, take_add_one, ← h.order, hbyte, hpos]
    rfl
  · intro i hi hlt
    change (s.taken ++ [_]).length ≤ i at hi
    rw [length_append] at hi
    exact h.kept i (by omega) hlt

theorem Sound.fill (h : s.Sound) (bs : List UInt8) : (fill bs s).1.Sound := by
  induction bs generalizing s with
  | nil => exact h
  | cons b bs ih =>
    rw [Pipe.fill]
    split_ifs with hf
    · exact h
    · exact ih (h.put (Bool.eq_false_iff.2 hf) b)

theorem Sound.drain (h : s.Sound) (n count : ℕ) : (drain n count s).1.Sound := by
  induction n generalizing s count with
  | zero => exact h
  | succ n ih =>
    rw [Pipe.drain]
    split_ifs with he
    · exact h
    · exact ih (h.take (Bool.eq_false_iff.2 he)) (count + 1)

/-- What is left to be stored is left because the pipe is full. -/
theorem isFull_of_fill {bs : List UInt8} (h : (fill bs s).2 ≠ []) :
    (fill bs s).1.isFull = true := by
  induction bs generalizing s with
  | nil => exact absurd rfl h
  | cons b bs ih =>
    rw [fill] at h ⊢
    split_ifs at h ⊢ with hf
    · exact hf
    · exact ih h

/-- Storing takes nothing and loses nothing, and neither closes the read end nor kills. -/
theorem fill_count (bs : List UInt8) (s : Pipe P) : (fill bs s).1.taken = s.taken ∧
    (fill bs s).1.killed = s.killed ∧ (fill bs s).1.readopen = s.readopen ∧
      (fill bs s).1.stored.length + (fill bs s).2.length = s.stored.length + bs.length := by
  induction bs generalizing s with
  | nil => exact ⟨rfl, rfl, rfl, rfl⟩
  | cons b bs ih =>
    rw [fill]
    split_ifs
    · exact ⟨rfl, rfl, rfl, rfl⟩
    · obtain ⟨h₁, h₂, h₃, h₄⟩ := ih (s.put b)
      refine ⟨h₁, h₂, h₃, h₄.trans ?_⟩
      change (s.stored ++ [b]).length + bs.length = _
      rw [length_append, length_singleton, length_cons]
      omega

theorem fill_of_isFull {bs : List UInt8} (h : s.isFull = true) : (fill bs s).1 = s := by
  cases bs with
  | nil => rfl
  | cons b bs => rw [fill, if_pos h]

/-- The room left in the buffer, by the counters. -/
def room (s : Pipe P) : ℤ := PIPESIZE - ((s.nwrite : ℤ) - s.nread) % 2 ^ 32

theorem room_of_isFull (h : s.isFull = true) : s.room = 0 := by
  have hw : s.nwrite = (s.nread + 512) % 2 ^ 32 := beq_iff_eq.1 h
  change (512 : ℤ) - _ = 0
  omega

theorem room_put (b : UInt8) (h : 0 < s.room) : (s.put b).room = s.room - 1 := by
  change (0 : ℤ) < 512 - ((s.nwrite : ℤ) - s.nread) % 2 ^ 32 at h
  change (512 : ℤ) - (((s.nwrite + 1) % 2 ^ 32 : ℕ) - s.nread) % 2 ^ 32 = 512 - _ - 1
  omega

/-- Bytes for which there is room are all stored. -/
theorem fill_of_le_room {bs : List UInt8} (h : (bs.length : ℤ) ≤ s.room) : (fill bs s).2 = [] := by
  induction bs generalizing s with
  | nil => rfl
  | cons b bs ih =>
    rw [length_cons] at h
    have hnot : ¬s.isFull = true := fun hf => by
      rw [room_of_isFull hf] at h
      omega
    rw [fill, if_neg hnot]
    refine ih ?_
    rw [room_put b (by omega)]
    omega

theorem drain_of_isEmpty {n count : ℕ} (h : s.isEmpty = true) : drain n count s = (s, count) := by
  cases n with
  | zero => rfl
  | succ n => rw [drain, if_pos h]

theorem le_drain (n count : ℕ) : count ≤ (drain n count s).2 := by
  induction n generalizing s count with
  | zero => exact le_rfl
  | succ n ih =>
    rw [drain]
    split_ifs
    · exact le_rfl
    · exact le_trans (Nat.le_succ count) (ih (count + 1))

theorem pipewrite_cases (p : P) (n : ℕ) (bs : List UInt8) (s : Pipe P) :
    pipewrite p n bs s = ⟨(fill bs s).1, [.nread], .leave n⟩ ∧ (fill bs s).2 = [] ∨
      (fill bs s).2 ≠ [] ∧ (((fill bs s).1.readopen = false ∨ (fill bs s).1.killed p = true) ∧
        pipewrite p n bs s = ⟨(fill bs s).1, [], .leave (-1)⟩ ∨
        ((fill bs s).1.readopen = true ∧ (fill bs s).1.killed p = false) ∧
          pipewrite p n bs s = ⟨(fill bs s).1, [.nread],
            .sleep .nwrite (.write n (fill bs s).2)⟩) := by
  rw [pipewrite]
  obtain ⟨s', rest⟩ := fill bs s
  cases rest with
  | nil => exact .inl ⟨rfl, rfl⟩
  | cons b rest =>
    refine .inr ⟨cons_ne_nil b rest, ?_⟩
    dsimp only
    split_ifs with hc
    · refine .inl ⟨?_, rfl⟩
      rw [Bool.or_eq_true, Bool.not_eq_true'] at hc
      exact hc
    · refine .inr ⟨?_, rfl⟩
      rw [Bool.or_eq_true, not_or, Bool.not_eq_true', Bool.not_eq_false, Bool.not_eq_true] at hc
      exact hc

theorem shared_pipewrite (p : P) (n : ℕ) (bs : List UInt8) (s : Pipe P) :
    (pipewrite p n bs s).shared = (fill bs s).1 := by
  rcases pipewrite_cases p n bs s with ⟨h, -⟩ | ⟨-, ⟨-, h⟩ | ⟨-, h⟩⟩ <;> rw [h]

theorem piperead_cases (p : P) (n : ℤ) (s : Pipe P) :
    (s.isEmpty = true ∧ s.writeopen = true) ∧ (piperead p n s = ⟨s, [], .leave (-1)⟩ ∨
      piperead p n s = ⟨s, [], .sleep .nread (.read n)⟩) ∨
    ¬(s.isEmpty = true ∧ s.writeopen = true) ∧
      piperead p n s = ⟨(drain n.toNat 0 s).1, [.nwrite], .leave (drain n.toNat 0 s).2⟩ := by
  rw [piperead]
  by_cases h : s.isEmpty = true ∧ s.writeopen = true
  · refine .inl ⟨h, ?_⟩
    rw [if_pos (by rw [Bool.and_eq_true]; exact h)]
    split_ifs
    · exact .inl rfl
    · exact .inr rfl
  · exact .inr ⟨h, by rw [if_neg (by rw [Bool.and_eq_true]; exact h)]⟩

variable [DecidableEq P]

/-- Every section keeps the records right. -/
theorem Sound.section_ (h : s.Sound) (p : P) (k : Call) : (text.section_ p k s).shared.Sound := by
  cases k with
  | write n bs =>
    change (pipewrite p n bs s).shared.Sound
    rw [shared_pipewrite]
    exact h.fill bs
  | read n =>
    change (piperead p n s).shared.Sound
    rcases piperead_cases p n s with ⟨-, hr | hr⟩ | ⟨-, hr⟩ <;> rw [hr]
    · exact h
    · exact h
    · exact h.drain _ _
  | close writable =>
    change (pipeclose writable s).shared.Sound
    rw [pipeclose]
    split_ifs
    · exact ⟨h.nread, h.nwrite, h.le, h.room, h.order, h.kept⟩
    · exact ⟨h.nread, h.nwrite, h.le, h.room, h.order, h.kept⟩

/-- The bytes in the buffer, from the next one to be read on. -/
def unread (s : Pipe P) : List UInt8 :=
  (List.range ((s.nwrite + 2 ^ 32 - s.nread) % 2 ^ 32)).map fun i =>
    s.data ((s.nread + i) % 2 ^ 32 % PIPESIZE)

omit [DecidableEq P] in
theorem Sound.level (h : s.Sound) :
    (s.nwrite + 2 ^ 32 - s.nread) % 2 ^ 32 = s.stored.length - s.taken.length := by
  have hle := h.le
  have hroom : s.stored.length ≤ s.taken.length + 512 := h.room
  rw [h.nread, h.nwrite]
  omega

omit [DecidableEq P] in
/-- What was stored is what was taken and what is in the buffer. -/
theorem Sound.taken_append_unread (h : s.Sound) : s.taken ++ s.unread = s.stored := by
  have hdrop : s.unread = s.stored.drop s.taken.length := by
    refine ext_getElem? fun i => ?_
    rw [unread, h.level, getElem?_map, getElem?_drop]
    by_cases hi : i < s.stored.length - s.taken.length
    · rw [getElem?_range hi, Option.map_some, h.kept _ (Nat.le_add_right _ _) (by omega)]
      congr 2
      rw [h.nread, Nat.mod_mod_of_dvd _ (by decide : PIPESIZE ∣ 2 ^ 32)]
      have hmod : s.taken.length % 2 ^ 32 % 512 = s.taken.length % 512 :=
        Nat.mod_mod_of_dvd _ (by decide)
      change (s.taken.length % 2 ^ 32 + i) % 512 = (s.taken.length + i) % 512
      omega
    · rw [getElem?_eq_none (by rw [length_range]; omega), getElem?_eq_none (by omega)]
      rfl
  rw [hdrop]
  conv_lhs => rw [h.order]
  rw [length_take, Nat.min_eq_left h.le, take_append_drop]

end Pipe

/-! ## Whole runs -/

section Runs

variable {P : Type} [DecidableEq P] {s₀ s : State P (Pipe P) Chan Call}

theorem sound_of_reach {ok : P → Call → Pipe P → Prop} (h₀ : s₀.shared.Fresh)
    (h : Reach (step Pipe.text) (Disciplined ok) s₀ s) : s.shared.Sound :=
  shared_invariant h h₀.sound (fun p k _ hx _ => hx.section_ p k)
    fun _ _ hx => ⟨hx.nread, hx.nwrite, hx.le, hx.room, hx.order, hx.kept⟩

/-- **Pipes deliver bytes exactly once and in order**, whatever the interleaving: there are
at most `PIPESIZE` bytes between the counters, the bytes taken followed by those in the
buffer are the bytes stored, and a read of something returns `0` only at the end. -/
theorem pipe_delivers (h₀ : s₀.shared.Fresh)
    (h : Reach (step Pipe.text) (Disciplined fun _ _ _ => True) s₀ s) :
    (s.shared.nwrite + 2 ^ 32 - s.shared.nread) % 2 ^ 32 ≤ PIPESIZE ∧
      s.shared.taken ++ s.shared.unread = s.shared.stored ∧ s.shared.unread.length ≤ PIPESIZE ∧
      ∀ p n, 0 < n → (Pipe.piperead p n s.shared).turn = .leave 0 →
        (Pipe.piperead p n s.shared).shared.writeopen = false ∧
          (Pipe.piperead p n s.shared).shared.taken =
            (Pipe.piperead p n s.shared).shared.stored := by
  have hs := sound_of_reach h₀ h
  have hroom := hs.room
  have hlevel : (s.shared.nwrite + 2 ^ 32 - s.shared.nread) % 2 ^ 32 ≤ PIPESIZE := by
    rw [hs.level]
    omega
  refine ⟨hlevel, hs.taken_append_unread, ?_, fun p n hn hr => ?_⟩
  · rw [Pipe.unread, length_map, length_range]
    exact hlevel
  · rcases Pipe.piperead_cases p n s.shared with ⟨-, hc | hc⟩ | ⟨hnot, hc⟩
    · rw [hc] at hr
      cases hr
    · rw [hc] at hr
      cases hr
    · -- nothing was copied, so the pipe was empty
      have hzero : (Pipe.drain n.toNat 0 s.shared).2 = 0 := by
        rw [hc] at hr
        simpa using hr
      have hempty : s.shared.isEmpty = true := by
        by_contra hne
        obtain ⟨m, hm⟩ : ∃ m, n.toNat = m + 1 := ⟨n.toNat - 1, by omega⟩
        rw [hm, Pipe.drain, if_neg hne] at hzero
        have := Pipe.le_drain (s := s.shared.take) m (0 + 1)
        omega
      have hclosed : s.shared.writeopen = false := by
        rw [Bool.eq_false_iff]
        exact fun hw => hnot ⟨hempty, hw⟩
      rw [hc, Pipe.drain_of_isEmpty hempty]
      refine ⟨hclosed, ?_⟩
      calc s.shared.taken = s.shared.stored.take s.shared.taken.length := hs.order
        _ = s.shared.stored := by rw [← hs.isEmpty_iff.1 hempty, take_length]

/-- What the sleepers of a channel count on. -/
def Reason : Chan → Pipe P → Prop
  | .nread, s => s.isEmpty = true ∧ s.writeopen = true
  | .nwrite, s => s.isFull = true ∧ s.readopen = true

/-- Whoever writes to a pipe that has no reader, or has been killed, finds the pipe full or
room for all the bytes. -/
def GivesUpIdle (p : P) (k : Call) (s : Pipe P) : Prop :=
  ∀ n bytes, k = .write n bytes → s.readopen = false ∨ s.killed p = true →
    s.isFull = true ∨ (bytes.length : ℤ) ≤ s.room

theorem guarded : Guarded (Pipe.text (P := P)) GivesUpIdle Reason where
  keep p k x c hok hc := by
    cases k with
    | write n bs =>
      change c ∈ (Pipe.pipewrite p n bs x).wakes ∨ Reason c (Pipe.pipewrite p n bs x).shared
      cases c with
      | nread =>
        rcases Pipe.pipewrite_cases p n bs x with ⟨h, -⟩ | ⟨hne, ⟨hgone, h⟩ | ⟨-, h⟩⟩
        · exact .inl (by rw [h]; exact mem_singleton_self _)
        · -- it gives up: something is left, so the pipe was full and nothing was stored
          obtain ⟨-, hkilled, hopen, -⟩ := Pipe.fill_count bs x
          rw [hkilled, hopen] at hgone
          rcases hok n bs rfl hgone with hfull | hfits
          · refine .inr ?_
            rw [h, Pipe.fill_of_isFull hfull]
            exact hc
          · exact absurd (Pipe.fill_of_le_room hfits) hne
        · exact .inl (by rw [h]; exact mem_singleton_self _)
      | nwrite =>
        refine .inr ?_
        rw [Pipe.shared_pipewrite, Pipe.fill_of_isFull hc.1]
        exact hc
    | read n =>
      change c ∈ (Pipe.piperead p n x).wakes ∨ Reason c (Pipe.piperead p n x).shared
      rcases Pipe.piperead_cases p n x with ⟨-, h | h⟩ | ⟨hnot, h⟩
      · exact .inr (by rw [h]; exact hc)
      · exact .inr (by rw [h]; exact hc)
      · cases c with
        | nread => exact absurd hc hnot
        | nwrite => exact .inl (by rw [h]; exact mem_singleton_self _)
    | close writable =>
      change c ∈ (Pipe.pipeclose writable x).wakes ∨ Reason c (Pipe.pipeclose writable x).shared
      rw [Pipe.pipeclose]
      cases writable <;> cases c
      · exact .inr hc
      · exact .inl (mem_singleton_self _)
      · exact .inl (mem_singleton_self _)
      · exact .inr hc
  sleep p k x c k' _ ht := by
    cases k with
    | write n bs =>
      change (Pipe.pipewrite p n bs x).turn = _ at ht
      change Reason c (Pipe.pipewrite p n bs x).shared
      rcases Pipe.pipewrite_cases p n bs x with ⟨h, -⟩ | ⟨hne, ⟨-, h⟩ | ⟨hopen, h⟩⟩
      · rw [h] at ht
        cases ht
      · rw [h] at ht
        cases ht
      · rw [h] at ht ⊢
        cases ht
        exact ⟨Pipe.isFull_of_fill hne, hopen.1⟩
    | read n =>
      change (Pipe.piperead p n x).turn = _ at ht
      change Reason c (Pipe.piperead p n x).shared
      rcases Pipe.piperead_cases p n x with ⟨hc, h | h⟩ | ⟨-, h⟩
      · rw [h] at ht
        cases ht
      · rw [h] at ht ⊢
        cases ht
        exact hc
      · rw [h] at ht
        cases ht
    | close writable =>
      change (Pipe.pipeclose writable x).turn = _ at ht
      rw [Pipe.pipeclose] at ht
      split_ifs at ht
  rouse p x c hc := by
    cases c <;> exact hc

/-- **No lost wake-ups on pipes**, in every run in which a write that is to give up finds the
pipe full, or room for all its bytes: whoever sleeps on `&nread` sleeps beside an
empty pipe with its write end open, whoever sleeps on `&nwrite` beside a full one with its
read end open. -/
theorem asleep_has_reason (h₀ : ∀ p, s₀.status p = .out)
    (h : Reach (step Pipe.text) (Disciplined GivesUpIdle) s₀ s) {p : P} {k : Call} :
    (s.status p = .asleep .nread k → s.shared.isEmpty = true ∧ s.shared.writeopen = true) ∧
      (s.status p = .asleep .nwrite k → s.shared.isFull = true ∧ s.shared.readopen = true) :=
  ⟨fun hp => asleep_holds guarded h h₀ hp, fun hp => asleep_holds guarded h h₀ hp⟩

end Runs

/-- A new pipe and nobody in it. -/
def freshPipe : State ℕ (Pipe ℕ) Chan Call where
  shared := ⟨fun _ => 0, 0, 0, true, true, fun _ => false, [], []⟩
  status _ := .out

theorem fresh_freshPipe : freshPipe.shared.Fresh := ⟨rfl, rfl, rfl, rfl⟩

/-- Three bytes are stored and two of them taken: the third is in the buffer. -/
theorem pipe_delivers_two : ∃ s : State ℕ (Pipe ℕ) Chan Call,
    s.shared.stored = [7, 8, 9] ∧ s.shared.taken = [7, 8] ∧ s.shared.unread = [9] ∧
      s.shared.taken ++ s.shared.unread = s.shared.stored := by
  have h : Reach (step Pipe.text) (Disciplined fun _ _ _ => True) freshPipe _ :=
    .step (a := .enter 0 (.read 2)) (.step (a := .enter 1 (.write 3 [7, 8, 9])) .init trivial rfl)
      trivial rfl
  exact ⟨_, rfl, rfl, rfl, (pipe_delivers fresh_freshPipe h).2.1⟩

/-- A writer that has been killed stores the byte there is room for, a reader takes it and then
sleeps beside an empty pipe. -/
theorem asleep_has_reason_reader : ∃ s : State ℕ (Pipe ℕ) Chan Call,
    s.shared.killed 1 = true ∧ s.shared.taken = [7] ∧ s.status 0 = .asleep .nread (.read 1) ∧
      s.shared.isEmpty = true ∧ s.shared.writeopen = true := by
  have hread : ∀ s, GivesUpIdle 0 (.read 1) s := fun _ _ _ hk => by cases hk
  have h : Reach (step Pipe.text) (Disciplined GivesUpIdle) freshPipe _ :=
    .step (a := .enter 0 (.read 1))
      (.step (a := .enter 0 (.read 1))
        (.step (a := .enter 1 (.write 1 [7])) (.step (a := .rouse 1) .init trivial rfl)
          (fun _ _ hk _ => by cases hk; exact .inr (by decide)) rfl)
        (hread _) rfl)
      (hread _) rfl
  exact ⟨_, rfl, rfl, rfl, (asleep_has_reason (p := 0) (fun _ => rfl) h).1 rfl⟩

/-- A reader sleeps beside a full pipe: a writer that has been killed fills it and gives up. -/
theorem reader_stranded : ∃ s : State ℕ (Pipe ℕ) Chan Call,
    Reach (step Pipe.text) (Disciplined fun _ _ _ => True) freshPipe s ∧
      s.status 0 = .asleep .nread (.read 1) ∧ s.shared.isEmpty = false := by
  -- process 0 goes to sleep, process 1 is killed
  have h₁ : Reach (step Pipe.text) (Disciplined fun _ _ _ => True) freshPipe
      ⟨{ freshPipe.shared with killed := update (fun _ => false) 1 true },
        update (update (fun _ => .out) 0 (.asleep .nread (.read 1))) 1 .out⟩ := by
    refine .step (a := .rouse 1) (.step (a := .enter 0 (.read 1)) .init trivial rfl) trivial ?_
    rfl
  generalize hs : ({ freshPipe.shared with killed := update (fun _ => false) 1 true } :
    Pipe ℕ) = x at h₁
  have hfresh : x.Fresh := by
    rw [← hs]
    exact ⟨rfl, rfl, rfl, rfl⟩
  have hlive : x.killed 1 = true := by
    rw [← hs]
    rfl
  -- it then writes 513 bytes
  generalize hbs : List.replicate 513 (7 : UInt8) = bs
  have hlen : bs.length = 513 := by rw [← hbs, length_replicate]
  have hsound : (Pipe.fill bs x).1.Sound := hfresh.sound.fill bs
  obtain ⟨htaken, hkilled, -, hcount⟩ := Pipe.fill_count bs x
  have hrest : (Pipe.fill bs x).2 ≠ [] := by
    intro hnil
    have hroom := hsound.room
    rw [hnil, hfresh.stored, hlen] at hcount
    rw [htaken, hfresh.taken] at hroom
    have hlt : (Pipe.fill bs x).1.stored.length ≤ 512 := hroom
    have heq : (Pipe.fill bs x).1.stored.length = 513 := hcount
    omega
  have hturn : Pipe.pipewrite 1 513 bs x = ⟨(Pipe.fill bs x).1, [], .leave (-1)⟩ := by
    rcases Pipe.pipewrite_cases 1 513 bs x with ⟨-, h⟩ | ⟨-, ⟨-, h⟩ | ⟨⟨-, h⟩, -⟩⟩
    · exact absurd h hrest
    · exact h
    · rw [hkilled, hlive] at h
      cases h
  refine ⟨_, .step (a := .enter 1 (.write 513 bs)) h₁ trivial rfl, ?_, ?_⟩
  · change wake (Pipe.pipewrite 1 513 bs x).wakes (.asleep Chan.nread (Call.read 1)) = _
    rw [hturn]
    rfl
  · change (Pipe.pipewrite 1 513 bs x).shared.isEmpty = false
    rw [hturn, Bool.eq_false_iff]
    intro hempty
    have h1 := hsound.isEmpty_iff.1 hempty
    have h2 : _ = _ + 512 := hsound.isFull_iff.1 (Pipe.isFull_of_fill hrest)
    omega

end Xv6.Proc
