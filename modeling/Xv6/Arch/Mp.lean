import Xv6.Param

/-!
# The walk over the MP configuration table

`crates/arch/src/mp.rs`: `mpconfig` finds the configuration table that the firmware left in
memory, and `mpinit` walks over its entries, whose sizes depend on their types.  Memory is a
function from (virtual) addresses to bytes, and the walk keeps a record of the addresses it reads.

* `mpsearch`, `mpconfig` — the search for the table.
* `entry`, `entries` — one turn of the loop of `mpinit`, and the loop.
* `entries_terminates`, `ncpu_entries` — the loop ends, with at most `NCPU` processors.
* `Layout` — how the type bytes of a table lay out its entries; `reads_inside_iff` — the reads
  outside of the table are those of the second byte of an entry that has only one.
* `mp_walk_iff` — all of it for the table that `mpconfig` returns.
-/

namespace Xv6.Arch.Mp

abbrev NCPU : ℕ := 8

abbrev MPPROC : UInt8 := 0x00

abbrev MPBUS : UInt8 := 0x01

abbrev MPIOAPIC : UInt8 := 0x02

abbrev MPIOINTR : UInt8 := 0x03

abbrev MPLINTR : UInt8 := 0x04

/-- `size_of::<mp>()`. -/
abbrev mpSize : ℕ := 16

/-- `size_of::<mpconf>()`. -/
abbrev mpconfSize : ℕ := 44

/-- `size_of::<mpproc>()`. -/
abbrev mpprocSize : ℕ := 20

/-- `size_of::<mpioapic>()`. -/
abbrev mpioapicSize : ℕ := 8

/-- Memory, by virtual address. -/
abbrev Bytes : Type := ℕ → UInt8

/-- `p2v`. -/
def p2v (pa : ℕ) : ℕ := pa + KERNBASE

/-- A `u16` in memory. -/
def u16At (mem : Bytes) (a : ℕ) : ℕ := (mem a).toNat + 256 * (mem (a + 1)).toNat

/-- A `u32` in memory. -/
def u32At (mem : Bytes) (a : ℕ) : ℕ := u16At mem a + 65536 * u16At mem (a + 2)

/-! ## The search -/

/-- `sum`. -/
def sum (mem : Bytes) (addr len : ℕ) : UInt8 :=
  ((List.range len).foldl (fun s i => s + (mem (addr + i)).toUInt32) (0 : UInt32)).toUInt8

/-- `memcmp(..) == 0`. -/
def matchesAt (mem : Bytes) (addr : ℕ) (sig : List UInt8) : Bool :=
  (List.range sig.length).map (fun i => mem (addr + i)) == sig

/-- `b"_MP_"`. -/
def mpSignature : List UInt8 := [0x5F, 0x4D, 0x50, 0x5F]

/-- `b"PCMP"`. -/
def confSignature : List UInt8 := [0x50, 0x43, 0x4D, 0x50]

/-- `mpsearch1`: the first of the places, `size_of::<mp>()` apart, with the signature and a sum of
zero. -/
def mpsearch1 (mem : Bytes) (a len : ℕ) : Option ℕ :=
  ((List.range ((len + mpSize - 1) / mpSize)).map fun i => p2v a + mpSize * i).find? fun p =>
    matchesAt mem p mpSignature && sum mem p mpSize == 0

/-- `mpsearch`; the subtraction is checked. -/
def mpsearch (mem : Bytes) : Except String (Option ℕ) :=
  let bda := p2v 0x400
  let ebda_seg := ((mem (bda + 0x0F)).toNat <<< 8) ||| (mem (bda + 0x0E)).toNat
  let p := ebda_seg <<< 4
  let rest := mpsearch1 mem 0xF0000 0x10000
  if p ≠ 0 then .ok ((mpsearch1 mem p 1024).or rest)
  else
    let basemem_kb := ((mem (bda + 0x14)).toNat <<< 8) ||| (mem (bda + 0x13)).toNat
    let p := basemem_kb * 1024
    if p < 1024 then .error "attempt to subtract with overflow"
    else .ok ((mpsearch1 mem (p - 1024) 1024).or rest)

/-- `(*conf).length`. -/
def length (mem : Bytes) (conf : ℕ) : ℕ := u16At mem (conf + 4)

/-- `mpconfig`: the floating pointer and the table. -/
def mpconfig (mem : Bytes) : Except String (Option (ℕ × ℕ)) := do
  match ← mpsearch mem with
  | none => pure none
  | some m =>
    if u32At mem (m + 4) = 0 then pure none
    else
      let conf := p2v (u32At mem (m + 4))
      if !matchesAt mem conf confSignature then pure none
      else if mem (conf + 6) ≠ 1 ∧ mem (conf + 6) ≠ 4 then pure none
      else if sum mem conf (length mem conf) ≠ 0 then pure none
      else pure (some (m, conf))

/-! ## The walk -/

/-- `cpus`, `ncpu` and `ioapicid`. -/
structure Cpus where
  apicid : ℕ → UInt8
  ncpu : ℕ
  ioapicid : UInt8

/-- Before `mpinit`. -/
def Cpus.boot : Cpus := ⟨fun _ => 0, 0, 0⟩

/-- One turn of the loop: the addresses it reads, and where the loop goes on unless it breaks. -/
structure Turn where
  reads : List ℕ
  next : Option (ℕ × Cpus)

/-- The body of the loop of `mpinit`. -/
def entry (mem : Bytes) (p : ℕ) (c : Cpus) : Turn :=
  if mem p = MPPROC then
    if c.ncpu < NCPU then
      ⟨[p, p + 1], some (p + mpprocSize,
        { c with apicid := Function.update c.apicid c.ncpu (mem (p + 1)), ncpu := c.ncpu + 1 })⟩
    else ⟨[p], some (p + mpprocSize, c)⟩
  else if mem p = MPIOAPIC then
    ⟨[p, p + 1], some (p + mpioapicSize, { c with ioapicid := mem (p + 1) })⟩
  else if mem p = MPBUS ∨ mem p = MPIOINTR ∨ mem p = MPLINTR then ⟨[p], some (p + 8, c)⟩
  else ⟨[p], none⟩

/-- The loop of `mpinit`, for so many turns at most: what it leaves, and all it has read. -/
def entries (mem : Bytes) (conf_end : ℕ) : ℕ → ℕ → Cpus → Option (Cpus × List ℕ)
  | 0, _, _ => none
  | n + 1, p, c =>
    if p < conf_end then
      match (entry mem p c).next with
      | none => some (c, (entry mem p c).reads)
      | some (p', c') =>
        (entries mem conf_end n p' c').map fun r => (r.1, (entry mem p c).reads ++ r.2)
    else some (c, [])

/-- What `mpinit` publishes: the address of the local APIC, the processors, and whether it masks
interrupts in the IMCR; with the reads of its loop. -/
structure Init where
  lapic : ℕ
  cpus : Cpus
  imcr : Bool
  reads : List ℕ

/-- `mpinit`, with so many turns of its loop at most; nothing is published without a table. -/
def mpinit (mem : Bytes) (fuel : ℕ) : Except String (Option Init) := do
  match ← mpconfig mem with
  | none => pure none
  | some (m, conf) =>
    match entries mem (conf + length mem conf) fuel (conf + mpconfSize) .boot with
    | none => .error "the loop goes on"
    | some (c, reads) => pure (some ⟨p2v (u32At mem (conf + 36)), c, mem (m + 12) != 0, reads⟩)

variable {mem : Bytes} {conf conf_end n p p' q : ℕ} {c c' : Cpus}

theorem mem_reads_entry {a : ℕ} :
    a ∈ (entry mem p c).reads ↔
      a = p ∨ ((mem p = MPIOAPIC ∨ mem p = MPPROC ∧ c.ncpu < NCPU) ∧ a = p + 1) := by
  unfold entry
  split_ifs with hproc hn hio hother
  · simp [hproc, hn]
  · have hne : MPPROC ≠ MPIOAPIC := by decide
    simp [hproc, hn, hne]
  · simp [hio]
  · simp [hproc, hio]
  · simp [hproc, hio]

/-- Every entry moves the pointer, and counts a processor only if there is room for it. -/
theorem next_entry (h : (entry mem p c).next = some (p', c')) :
    p + 8 ≤ p' ∧ (c.ncpu ≤ NCPU → c'.ncpu ≤ NCPU) := by
  unfold entry at h
  split_ifs at h with hproc hn hio hother
  · obtain ⟨rfl, rfl⟩ := Prod.mk.inj (Option.some.inj h)
    exact ⟨Nat.add_le_add_left (by decide) p, fun _ => hn⟩
  · obtain ⟨rfl, rfl⟩ := Prod.mk.inj (Option.some.inj h)
    exact ⟨Nat.add_le_add_left (by decide) p, id⟩
  · obtain ⟨rfl, rfl⟩ := Prod.mk.inj (Option.some.inj h)
    exact ⟨Nat.add_le_add_left (by decide) p, id⟩
  · obtain ⟨rfl, rfl⟩ := Prod.mk.inj (Option.some.inj h)
    exact ⟨Nat.add_le_add_left (by decide) p, id⟩

/-- **The loop ends.** -/
theorem entries_terminates (hn : conf_end - p < n) : ∃ r, entries mem conf_end n p c = some r := by
  induction n generalizing p c with
  | zero => omega
  | succ n ih =>
    rw [entries]
    split_ifs with hlt
    · cases hnext : (entry mem p c).next with
      | none => exact ⟨_, rfl⟩
      | some r =>
        obtain ⟨p', c'⟩ := r
        have hmove := (next_entry hnext).1
        obtain ⟨r, hr⟩ := ih (p := p') (c := c') (by omega)
        simp only [hr, Option.map_some]
        exact ⟨_, rfl⟩
    · exact ⟨_, rfl⟩

/-- **There are never too many processors.** -/
theorem ncpu_entries {r : Cpus × List ℕ} (hc : c.ncpu ≤ NCPU)
    (h : entries mem conf_end n p c = some r) : r.1.ncpu ≤ NCPU := by
  induction n generalizing p c r with
  | zero => cases h
  | succ n ih =>
    rw [entries] at h
    split_ifs at h with hlt
    · cases hnext : (entry mem p c).next with
      | none =>
        rw [hnext] at h
        cases h
        exact hc
      | some r =>
        obtain ⟨p', c'⟩ := r
        rw [hnext] at h
        obtain ⟨r', hr', rfl⟩ := Option.map_eq_some_iff.1 h
        exact ih (r := r') ((next_entry hnext).2 hc) hr'
    · cases h
      exact hc

/-- How long an entry of this type is; a table ends at any other type. -/
def entrySize (type_ : UInt8) : Option ℕ :=
  if type_ = MPPROC then some 20
  else if type_ ∈ [MPBUS, MPIOAPIC, MPIOINTR, MPLINTR] then some 8
  else none

/-- From `p` to `q` there are entries of these types, one after another. -/
inductive Layout (mem : Bytes) : ℕ → ℕ → List UInt8 → Prop
  | nil (p : ℕ) : Layout mem p p []
  | cons {p q n : ℕ} {types : List UInt8} : entrySize (mem p) = some n →
      Layout mem (p + n) q types → Layout mem p q (mem p :: types)

/-- The last byte of the table is the type of an entry, and that of an I/O APIC, or of a processor
for which there is room after `k` others and those between. -/
def Overruns (mem : Bytes) (conf_end p k : ℕ) : Prop :=
  ∃ q types, Layout mem p q types ∧ q + 1 = conf_end ∧
    (mem q = MPIOAPIC ∨ mem q = MPPROC ∧ k + types.count MPPROC < NCPU)

theorem Layout.le {types : List UInt8} (h : Layout mem p q types) : p ≤ q := by
  induction h with
  | nil => exact le_rfl
  | cons _ _ ih => exact le_trans (Nat.le_add_right _ _) ih

theorem not_overruns {k : ℕ} (hge : conf_end ≤ p) : ¬Overruns mem conf_end p k := by
  rintro ⟨q, types, hlay, hq, -⟩
  have hle := hlay.le
  omega

theorem overruns_iff {k : ℕ} : Overruns mem conf_end p k ↔
    (p + 1 = conf_end ∧ (mem p = MPIOAPIC ∨ mem p = MPPROC ∧ k < NCPU)) ∨
      ∃ n, entrySize (mem p) = some n ∧
        Overruns mem conf_end (p + n) (k + if mem p = MPPROC then 1 else 0) := by
  have hcount : ∀ types : List UInt8, k + (mem p :: types).count MPPROC =
      k + (if mem p = MPPROC then 1 else 0) + types.count MPPROC := by
    intro types
    rw [List.count_cons]
    simp only [beq_iff_eq]
    omega
  constructor
  · rintro ⟨q, types, hlay, hq, htwo⟩
    cases hlay with
    | nil => exact .inl ⟨hq, htwo⟩
    | cons hsize hrest =>
      rw [hcount] at htwo
      exact .inr ⟨_, hsize, q, _, hrest, hq, htwo⟩
  · rintro (⟨hq, htwo⟩ | ⟨n, hsize, q, types, hlay, hq, htwo⟩)
    · exact ⟨p, [], .nil p, hq, htwo⟩
    · rw [← hcount] at htwo
      exact ⟨q, _, .cons hsize hlay, hq, htwo⟩

/-- Without room for a processor it does not matter how many there are. -/
theorem overruns_full {k k' : ℕ} (hk : NCPU ≤ k) (hk' : NCPU ≤ k') :
    Overruns mem conf_end p k ↔ Overruns mem conf_end p k' := by
  have hno : ∀ {k}, NCPU ≤ k → ∀ q (types : List UInt8),
      (mem q = MPIOAPIC ∨ mem q = MPPROC ∧ k + types.count MPPROC < NCPU) ↔ mem q = MPIOAPIC := by
    intro k hk q types
    exact or_iff_left fun h => absurd h.2 (by omega)
  unfold Overruns
  simp only [hno hk, hno hk']

/-- The loop follows the layout, and counts the processors there is room for. -/
theorem next_entry_eq (mem : Bytes) (p : ℕ) (c : Cpus) :
    (entry mem p c).next.map (fun y => (y.1, y.2.ncpu)) = (entrySize (mem p)).map fun n =>
      (p + n, if mem p = MPPROC ∧ c.ncpu < NCPU then c.ncpu + 1 else c.ncpu) := by
  unfold entry entrySize
  by_cases hproc : mem p = MPPROC
  · by_cases hn : c.ncpu < NCPU
    · simp [hproc, hn]
    · simp [hproc, hn]
  · by_cases hio : mem p = MPIOAPIC
    · have hne : MPIOAPIC ≠ MPPROC := by decide
      simp [hio, hne]
    · by_cases hother : mem p = MPBUS ∨ mem p = MPIOINTR ∨ mem p = MPLINTR
      · simp [hproc, hio, hother]
      · simp [hproc, hio, hother]

/-- After a turn, what is left of the table overruns as the turn has left it. -/
theorem overruns_next (hnext : (entry mem p c).next = some (p', c')) :
    (∃ n, entrySize (mem p) = some n ∧
      Overruns mem conf_end (p + n) (c.ncpu + if mem p = MPPROC then 1 else 0)) ↔
      Overruns mem conf_end p' c'.ncpu := by
  have he := next_entry_eq mem p c
  rw [hnext, Option.map_some] at he
  obtain ⟨n, hn, he⟩ := Option.map_eq_some_iff.1 he.symm
  obtain ⟨rfl, hcpu⟩ := Prod.mk.inj he
  simp only [hn, Option.some.injEq, exists_eq_left']
  rw [← hcpu]
  by_cases hproc : mem p = MPPROC
  · by_cases hroom : c.ncpu < NCPU
    · rw [if_pos hproc, if_pos ⟨hproc, hroom⟩]
    · rw [if_pos hproc, if_neg fun hc => hroom hc.2]
      exact overruns_full (by omega) (by omega)
  · rw [if_neg hproc, if_neg fun hc => hproc hc.1, Nat.add_zero]

theorem no_layout (hnext : (entry mem p c).next = none) : entrySize (mem p) = none := by
  have he := next_entry_eq mem p c
  rw [hnext, Option.map_none] at he
  exact Option.map_eq_none_iff.1 he.symm

/-- **The reads are inside of the table unless an entry is cut off after its first byte.** -/
theorem reads_inside_iff {r : Cpus × List ℕ} (hp : conf ≤ p)
    (h : entries mem conf_end n p c = some r) :
    (∀ a ∈ r.2, conf ≤ a ∧ a < conf_end) ↔ ¬Overruns mem conf_end p c.ncpu := by
  induction n generalizing p c r with
  | zero => cases h
  | succ n ih =>
    rw [entries] at h
    split_ifs at h with hlt
    · -- one turn reads its first byte inside, and its second unless the table ends there
      have hturn : (∀ a ∈ (entry mem p c).reads, conf ≤ a ∧ a < conf_end) ↔
          ¬(p + 1 = conf_end ∧ (mem p = MPIOAPIC ∨ mem p = MPPROC ∧ c.ncpu < NCPU)) := by
        constructor
        · rintro hall ⟨hend, htwo⟩
          have := hall (p + 1) (mem_reads_entry.2 (Or.inr ⟨htwo, rfl⟩))
          omega
        · intro hcut a ha
          rcases mem_reads_entry.1 ha with rfl | ⟨htwo, rfl⟩
          · exact ⟨hp, hlt⟩
          · have hne : p + 1 ≠ conf_end := fun he => hcut ⟨he, htwo⟩
            omega
      rw [overruns_iff, not_or]
      cases hnext : (entry mem p c).next with
      | none =>
        rw [hnext] at h
        cases h
        rw [hturn, no_layout hnext]
        simp
      | some y =>
        obtain ⟨p', c'⟩ := y
        rw [hnext] at h
        obtain ⟨r', hr', rfl⟩ := Option.map_eq_some_iff.1 h
        have hmove := (next_entry hnext).1
        rw [overruns_next hnext, ← ih (p := p') (by omega) hr', ← hturn]
        exact List.forall_mem_append
    · cases h
      exact iff_of_true (by simp) (not_overruns (by omega))

theorem mpinit_eq {m : ℕ} {reads : List ℕ} (h : mpconfig mem = .ok (some (m, conf)))
    (hr : entries mem (conf + length mem conf) n (conf + mpconfSize) .boot = some (c, reads)) :
    mpinit mem n =
      .ok (some ⟨p2v (u32At mem (conf + 36)), c, mem (m + 12) != 0, reads⟩) := by
  unfold mpinit
  rw [h]
  simp only [bind, Except.bind, hr]
  rfl

/-- A memory with these bytes, by physical address, and otherwise zeros. -/
def firmware (bytes : List (ℕ × UInt8)) : Bytes := fun a =>
  (bytes.find? fun b => p2v b.1 == a).elim 0 (·.2)

/-- The extended BIOS data area is at `0x9FC00` and starts with a floating pointer to a table at
`0x9FD00`. -/
def floating : List (ℕ × UInt8) :=
  [(0x40E, 0xC0), (0x40F, 0x9F), (0x9FC00, 0x5F), (0x9FC01, 0x4D), (0x9FC02, 0x50), (0x9FC03, 0x5F),
   (0x9FC05, 0xFD), (0x9FC06, 0x09), (0x9FC08, 1), (0x9FC09, 4), (0x9FC0A, 0x9A)]

/-- A table of this length with this sum of its header, and these entries. -/
def table (len check : UInt8) (entries : List (ℕ × UInt8)) : Bytes :=
  firmware (floating ++
    [(0x9FD00, 0x50), (0x9FD01, 0x43), (0x9FD02, 0x4D), (0x9FD03, 0x50), (0x9FD04, len),
     (0x9FD06, 4), (0x9FD07, check)] ++ entries)

/-- One processor, in a table that holds all of its entry. -/
def oneProcessor : Bytes := table 64 133 [(0x9FD2D, 7)]

/-- A table that ends after the type of a processor. -/
def cutOff : Bytes := table 45 159 []

/-- **The walk over the table.**  Whatever the firmware left in memory, if `mpconfig` returns a
table then the loop of `mpinit` ends and has counted at most `NCPU` processors; and it has read
bytes of the table only, exactly if the entries, laid out one after another behind the header, do
not leave the last byte of the table to the type of an I/O APIC, or of a processor after fewer than
`NCPU` others. -/
theorem mp_walk_iff {m : ℕ} (h : mpconfig mem = .ok (some (m, conf))) :
    ∃ i, mpinit mem (length mem conf + 1) = .ok (some i) ∧ i.cpus.ncpu ≤ NCPU ∧
      ((∀ a ∈ i.reads, conf ≤ a ∧ a < conf + length mem conf) ↔
        ¬Overruns mem (conf + length mem conf) (conf + mpconfSize) 0) := by
  have hends : ∃ r, entries mem (conf + length mem conf) (length mem conf + 1)
      (conf + mpconfSize) .boot = some r := entries_terminates (by omega)
  obtain ⟨⟨c, reads⟩, hr⟩ := hends
  refine ⟨⟨p2v (u32At mem (conf + 36)), c, mem (m + 12) != 0, reads⟩, ?_,
    ncpu_entries (Nat.zero_le _) hr, reads_inside_iff (Nat.le_add_right _ _) hr⟩
  exact mpinit_eq h hr

/-- The processor is counted, and all the loop reads is in the table. -/
theorem mp_walk_oneProcessor : ∃ i, mpinit oneProcessor 65 = .ok (some i) ∧ i.cpus.ncpu ≤ NCPU ∧
    ∀ a ∈ i.reads, p2v 0x9FD00 ≤ a ∧ a < p2v 0x9FD00 + 64 := by
  have hlen : length oneProcessor (p2v 0x9FD00) = 64 := by decide +kernel
  have hconf : mpconfig oneProcessor = .ok (some (p2v 0x9FC00, p2v 0x9FD00)) := by
    decide +kernel
  obtain ⟨i, hi, hcpu, hreads⟩ := mp_walk_iff hconf
  rw [hlen] at hi hreads
  refine ⟨i, hi, hcpu, hreads.2 ?_⟩
  -- the entry is the only one, and it ends where the table does
  rw [overruns_iff]
  rintro (⟨hend, -⟩ | ⟨n, hsize, hover⟩)
  · exact absurd hend (by decide)
  · have hfirst : entrySize (oneProcessor (p2v 0x9FD00 + mpconfSize)) = some 20 := by decide +kernel
    obtain rfl : 20 = n := Option.some.inj (hfirst.symm.trans hsize)
    exact not_overruns (by decide) hover

/-- The table is as long as its header and one byte, and the byte after it is read. -/
theorem mp_walk_cutOff : mpconfig cutOff = .ok (some (p2v 0x9FC00, p2v 0x9FD00)) ∧
    length cutOff (p2v 0x9FD00) = 45 ∧
    ∃ i, mpinit cutOff 46 = .ok (some i) ∧ p2v 0x9FD00 + 45 ∈ i.reads := by
  have hreads : (entries cutOff (p2v 0x9FD00 + 45) 46 (p2v 0x9FD00 + mpconfSize) .boot).map (·.2) =
      some [p2v 0x9FD00 + 44, p2v 0x9FD00 + 45] := by decide +kernel
  have hlen : length cutOff (p2v 0x9FD00) = 45 := by decide +kernel
  have hconf : mpconfig cutOff = .ok (some (p2v 0x9FC00, p2v 0x9FD00)) := by decide +kernel
  obtain ⟨⟨c, reads⟩, hr, rfl⟩ := Option.map_eq_some_iff.1 hreads
  rw [← hlen] at hr
  exact ⟨hconf, hlen, _, mpinit_eq hconf hr, List.mem_cons_of_mem _ (List.mem_singleton_self _)⟩

end Xv6.Arch.Mp
