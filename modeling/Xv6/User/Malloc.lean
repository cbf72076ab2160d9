import Xv6.Lib.Bytes

/-!
# The user heap allocator

`malloc`, `morecore` and `free` of `crates/ulib/src/lib.rs`: a circular list of free blocks
in address order, with a roving pointer and a sentinel of size zero.  Addresses are in
bytes, sizes in units of a header; a header is known by its address.  The loops run on a
bound; `sbrk` grants a request or refuses it.
-/

namespace Xv6.User

open Function

/-- `HEADER_SIZE`. -/
abbrev HEADER_SIZE : ℕ := 16

/-- The memory of the allocator. -/
structure Heap where
  /-- `next` of the header at an address. -/
  next : ℕ → ℕ
  /-- `size` of the header at an address. -/
  size : ℕ → ℕ
  /-- `FREEP`, `0` for null. -/
  freep : ℕ
  /-- The break. -/
  brk : ℕ
  /-- The calls of `sbrk` so far. -/
  calls : ℕ

/-- `p.add(n)` on headers. -/
def addUnits (p n : ℕ) : ℕ := p + HEADER_SIZE * n

namespace Heap

/-- The loop of `free`: where in the list the block belongs. -/
def search (bp : ℕ) : ℕ → ℕ → Heap → Option ℕ
  | 0, _, _ => none
  | fuel + 1, p, h =>
    if p < bp ∧ bp < h.next p then some p
    else if h.next p ≤ p ∧ (p < bp ∨ bp < h.next p) then some p
    else search bp fuel (h.next p) h

/-- Coalesce with the upper neighbour. -/
def joinUpper (bp p : ℕ) (h : Heap) : Heap :=
  if addUnits bp (h.size bp) = h.next p then
    { h with
      size := update h.size bp (h.size bp + h.size (h.next p))
      next := update h.next bp (h.next (h.next p)) }
  else { h with next := update h.next bp (h.next p) }

/-- Coalesce with the lower neighbour. -/
def joinLower (bp p : ℕ) (h : Heap) : Heap :=
  if addUnits p (h.size p) = bp then
    { h with
      size := update h.size p (h.size p + h.size bp)
      next := update h.next p (h.next bp) }
  else { h with next := update h.next p bp }

/-- The rest of `free`. -/
def insert (bp p : ℕ) (h : Heap) : Heap := { joinLower bp p (joinUpper bp p h) with freep := p }

/-- `free`. -/
def free (fuel ptr : ℕ) (h : Heap) : Option Heap :=
  if ptr = 0 then some h
  else (search (ptr - HEADER_SIZE) fuel h.freep h).map fun p => insert (ptr - HEADER_SIZE) p h

/-- `sbrk`: the old break, or `none` for `-1`. -/
def sbrk (grants : ℕ → Bool) (n : ℤ) (h : Heap) : Option ℕ × Heap :=
  if grants h.calls then (some h.brk, { h with brk := (h.brk + n).toNat, calls := h.calls + 1 })
  else (none, { h with calls := h.calls + 1 })

/-- `morecore`: the new `FREEP`, or null. -/
def morecore (grants : ℕ → Bool) (fuel nu : ℕ) (h : Heap) : Option (ℕ × Heap) :=
  let units := if nu < 4096 then 4096 else nu
  match sbrk grants (Lib.asI32 (units * HEADER_SIZE)) h with
  | (none, h) => some (0, h)
  | (some p, h) =>
    (free fuel (addUnits p 1) { h with size := update h.size p units }).map fun h => (h.freep, h)

/-- `malloc` has found a fit: the whole block, or its tail. -/
def take (nunits prevp p : ℕ) (h : Heap) : ℕ × Heap :=
  if h.size p = nunits then
    (addUnits p 1, { h with next := update h.next prevp (h.next p), freep := prevp })
  else
    let rest := h.size p - nunits
    let q := addUnits p rest
    (addUnits q 1, { h with size := update (update h.size p rest) q nunits, freep := prevp })

/-- The loop of `malloc`. -/
def mallocLoop (grants : ℕ → Bool) (nunits : ℕ) : ℕ → ℕ → ℕ → Heap → Option (ℕ × Heap)
  | 0, _, _, _ => none
  | fuel + 1, prevp, p, h =>
    if nunits ≤ h.size p then some (take nunits prevp p h)
    else if p = h.freep then
      match morecore grants fuel nunits h with
      | none => none
      | some (p, h) => if p = 0 then some (0, h) else mallocLoop grants nunits fuel p (h.next p) h
    else mallocLoop grants nunits fuel p (h.next p) h

/-- The units that `malloc` looks for. -/
def unitsFor (nbytes : ℕ) : ℕ := (nbytes + HEADER_SIZE - 1) / HEADER_SIZE + 1

/-- The first call makes the list, of `BASE` alone. -/
def ensure (base : ℕ) (h : Heap) : Heap :=
  if h.freep = 0 then
    { h with next := update h.next base base, size := update h.size base 0, freep := base }
  else h

/-- `malloc`. -/
def malloc (base : ℕ) (grants : ℕ → Bool) (fuel nbytes : ℕ) (h : Heap) : Option (ℕ × Heap) :=
  let h := ensure base h
  mallocLoop grants (unitsFor nbytes) fuel h.freep (h.next h.freep) h

end Heap

/-- A program and its heap: the pointers it has been given and has not freed. -/
structure Client where
  /-- The allocator's memory. -/
  heap : Heap
  /-- The pointers. -/
  live : List ℕ

/-- What a program does. -/
inductive HeapAct where
  /-- `malloc`, with a bound on its loops. -/
  | malloc (fuel nbytes : ℕ)
  /-- `free`. -/
  | free (fuel ptr : ℕ)
  /-- The program writes to its memory, where a header might have been. -/
  | write (a next size : ℕ)

/-- One step, if the bound suffices. -/
def heapStep (base : ℕ) (grants : ℕ → Bool) (s : Client) : HeapAct → Option Client
  | .malloc fuel nbytes =>
    (s.heap.malloc base grants fuel nbytes).map fun (ptr, h) =>
      ⟨h, if ptr = 0 then s.live else ptr :: s.live⟩
  | .free fuel ptr => (s.heap.free fuel ptr).map fun h => ⟨h, s.live.erase ptr⟩
  | .write a next size =>
    some ⟨{ s.heap with next := update s.heap.next a next, size := update s.heap.size a size },
      s.live⟩

/-- Requests fit in an `i32` when rounded; only live pointers are freed; a program writes
only to the blocks it has. -/
def Proper (s : Client) : HeapAct → Prop
  | .malloc _ nbytes => Heap.unitsFor nbytes * HEADER_SIZE < 2 ^ 31
  | .free _ ptr => ptr ∈ s.live
  | .write a _ _ => ∃ ptr ∈ s.live,
      ptr ≤ a ∧ a < addUnits (ptr - HEADER_SIZE) (s.heap.size (ptr - HEADER_SIZE))

/-- Before the first call. -/
def bootClient (lo : ℕ) : Client := ⟨⟨fun _ => 0, fun _ => 0, 0, lo, 0⟩, []⟩

end Xv6.User
