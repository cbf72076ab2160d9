import Xv6.Mm.Kalloc
import Xv6.Fs.FileIO

/-!
# Virtual memory

The functions of `crates/arch/src/vm.rs` on user page tables.  A table is the number of
the frame it lives in, a pointer to an entry the frame and the index, and null is `none`.
-/

namespace Xv6.Mm

open Lib

/-- `setupkvm`: a root table with the kernel half. -/
def setupkvm : Prog Mem (Option ℕ) := do
  let pml4 ← kalloc
  match pml4 with
  | none => pure none
  | some p => do
    .change fun m => m.write p (Page.fill 0)
    .change fun m => m.setEntry p 256 (mkEntry m.kpdpt (PTE_P ||| PTE_W))
    pure (some p)

/-- One level of `walkpgdir`: the table that entry `i` of `t` refers to, a new one if it
is missing and `alloc` is set. -/
def nextTable (alloc : Bool) (t i : ℕ) : Prog Mem (Option ℕ) := do
  let e ← .look fun m => (m.ram t).entry i
  if present e then pure (some (frameOf e))
  else if !alloc then pure none
  else do
    let p ← kalloc
    match p with
    | none => pure none
    | some p => do
      .change fun m => m.write p (Page.fill 0)
      .change fun m => m.setEntry t i (mkEntry p (PTE_P ||| PTE_W ||| PTE_U))
      pure (some p)

/-- `walkpgdir`. -/
def walkpgdir (pml4 va : ℕ) (alloc : Bool) : Prog Mem (Option (ℕ × ℕ)) := do
  let pdp ← nextTable alloc pml4 (PMX va)
  match pdp with
  | none => pure none
  | some pdp => do
    let pd ← nextTable alloc pdp (PDPX va)
    match pd with
    | none => pure none
    | some pd => do
      let pgtab ← nextTable alloc pd (PDX va)
      match pgtab with
      | none => pure none
      | some pgtab => pure (some (pgtab, PTX va))

/-- The loop of `mappages`: the first argument counts the pages left, `pa` is the frame. -/
def mapLoop (pgdir last perm : ℕ) : ℕ → ℕ → ℕ → Prog Mem ℤ
  | 0, _, _ => pure 0
  | n + 1, a, pa => do
    let pte ← walkpgdir pgdir a true
    match pte with
    | none => pure (-1)
    | some (t, i) => do
      .panicIf (fun m => present ((m.ram t).entry i)) "remap"
      .change fun m => m.setEntry t i (mkEntry pa (perm ||| PTE_P))
      if a = last then pure 0
      else do
        let a ← add64 a PGSIZE
        mapLoop pgdir last perm n a (pa + 1)

/-- `mappages`. -/
def mappages (pgdir va size pa perm : ℕ) : Prog Mem ℤ := do
  let a := PGROUNDDOWN va
  let sum ← add64 va size
  let top ← subU sum 1
  let last := PGROUNDDOWN top
  mapLoop pgdir last perm ((last - a) / PGSIZE + 1) a pa

/-- `inituvm`. -/
def inituvm (pgdir : ℕ) (init : List UInt8) : Prog Mem Unit := do
  if PGSIZE ≤ init.length then .panic "inituvm: more than a page"
  else do
    let mem ← kalloc
    match mem with
    | none => .panic "null pointer dereference"
    | some f => do
      .change fun m => m.write f (Page.fill 0)
      let _ ← mappages pgdir PGSIZE PGSIZE f (PTE_W ||| PTE_U)
      .change fun m => m.write f (splice (m.ram f) 0 init.length fun i => init.getD i 0)

/-- One pass of the loop of `deallocuvm`. -/
def deallocPage (pgdir a : ℕ) : Prog Mem Unit := do
  let pte ← walkpgdir pgdir a false
  match pte with
  | none => pure ()
  | some (t, i) => do
    let e ← .look fun m => (m.ram t).entry i
    if present e then
      if frameOf e = 0 then .panic "kfree"
      else do
        kfree (frameOf e)
        .change fun m => m.setEntry t i 0
    else pure ()

/-- The loop of `deallocuvm`, with a bound on the pages left. -/
def deallocLoop (pgdir oldsz : ℕ) : ℕ → ℕ → Prog Mem Unit
  | 0, _ => pure ()
  | n + 1, a =>
    if a < oldsz then do
      deallocPage pgdir a
      let a ← add64 a PGSIZE
      deallocLoop pgdir oldsz n a
    else pure ()

/-- `deallocuvm`. -/
def deallocuvm (pgdir oldsz newsz : ℕ) : Prog Mem ℕ := do
  if oldsz ≤ newsz then pure oldsz
  else do
    let a ← PGROUNDUP newsz
    deallocLoop pgdir oldsz (oldsz / PGSIZE + 1) a
    pure newsz

/-- The loop of `allocuvm`, with a bound on the pages left. -/
def allocLoop (pgdir oldsz newsz : ℕ) : ℕ → ℕ → Prog Mem ℕ
  | 0, _ => pure newsz
  | n + 1, a =>
    if a < newsz then do
      let mem ← kalloc
      match mem with
      | none => do
        let _ ← deallocuvm pgdir newsz oldsz
        pure 0
      | some f => do
        .change fun m => { m.write f (Page.fill 0) with granted := m.granted ++ [f] }
        let r ← mappages pgdir a PGSIZE f (PTE_W ||| PTE_U)
        if r < 0 then do
          let _ ← deallocuvm pgdir newsz oldsz
          kfree f
          pure 0
        else do
          let a ← add64 a PGSIZE
          allocLoop pgdir oldsz newsz n a
    else pure newsz

/-- `allocuvm`. -/
def allocuvm (pgdir oldsz newsz : ℕ) : Prog Mem ℕ := do
  if KERNBASE ≤ newsz then pure 0
  else if newsz < oldsz then pure oldsz
  else do
    let a ← PGROUNDUP oldsz
    allocLoop pgdir oldsz newsz (newsz / PGSIZE + 1) a

/-- One loop of `freevm` and those inside it: the entries of a table `n` levels above the
user pages, then the table. -/
def freeLevel : ℕ → ℕ → Prog Mem Unit
  | 0, t => kfree t
  | n + 1, t => do
    Prog.forEach (List.range NPDENTRIES) fun i => do
      let e ← .look fun m => (m.ram t).entry i
      if present e then freeLevel n (frameOf e) else pure ()
    kfree t

/-- `freevm`: the outermost loop stops at the kernel half. -/
def freevm (pml4 : Option ℕ) : Prog Mem Unit :=
  match pml4 with
  | none => .panic "freevm: no pgdir"
  | some t => do
    Prog.forEach (List.range (NPDENTRIES / 2)) fun i => do
      let e ← .look fun m => (m.ram t).entry i
      if present e then freeLevel 3 (frameOf e) else pure ()
    kfree t

/-- `clearpteu`. -/
def clearpteu (pgdir uva : ℕ) : Prog Mem Unit := do
  let pte ← walkpgdir pgdir uva false
  match pte with
  | none => .panic "clearpteu"
  | some (t, i) => .change fun m => m.setEntry t i (clearUser ((m.ram t).entry i))

/-- The loop of `copyuvm`, with a bound on the pages left. -/
def copyLoop (pgdir d sz : ℕ) : ℕ → ℕ → Prog Mem (Option ℕ)
  | 0, _ => pure (some d)
  | n + 1, i =>
    if i < sz then do
      let pte ← walkpgdir pgdir i false
      match pte with
      | none => .panic "copyuvm: pte should exist"
      | some (t, j) => do
        let e ← .look fun m => (m.ram t).entry j
        if !present e then .panic "copyuvm: page not present"
        else do
          let mem ← kalloc
          match mem with
          | none => do
            freevm (some d)
            pure none
          | some f => do
            .change fun m => m.write f (m.ram (frameOf e))
            let r ← mappages d i PGSIZE f (flagsOf e)
            if r < 0 then do
              freevm (some d)
              pure none
            else do
              let i ← add64 i PGSIZE
              copyLoop pgdir d sz n i
    else pure (some d)

/-- `copyuvm`. -/
def copyuvm (pgdir sz : ℕ) : Prog Mem (Option ℕ) := do
  let d ← setupkvm
  match d with
  | none => pure none
  | some d => copyLoop pgdir d sz (sz / PGSIZE + 1) PGSIZE

/-- `uva2ka`. -/
def uva2ka (pgdir uva : ℕ) : Prog Mem (Option ℕ) := do
  let pte ← walkpgdir pgdir uva false
  match pte with
  | none => pure none
  | some (t, i) => do
    let e ← .look fun m => (m.ram t).entry i
    if !present e || !isUser e then pure none else pure (some (frameOf e))

/-- The loop of `copyout`, with a bound on the pages left. -/
def copyoutLoop (pgdir : ℕ) : ℕ → ℕ → List UInt8 → Prog Mem ℤ
  | 0, _, _ => pure 0
  | n + 1, va, buf =>
    if 0 < buf.length then do
      let va0 := PGROUNDDOWN va
      let pa0 ← uva2ka pgdir va0
      match pa0 with
      | none => pure (-1)
      | some f => do
        let k := min (PGSIZE - (va - va0)) buf.length
        .change fun m => m.write f (splice (m.ram f) (va - va0) k fun i => buf.getD i 0)
        let va ← add64 va0 PGSIZE
        copyoutLoop pgdir n va (buf.drop k)
    else pure 0

/-- `copyout`, of these bytes. -/
def copyout (pgdir va : ℕ) (buf : List UInt8) : Prog Mem ℤ :=
  copyoutLoop pgdir (buf.length / PGSIZE + 2) va buf

end Xv6.Mm
