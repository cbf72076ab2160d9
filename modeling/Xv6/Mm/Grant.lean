import Xv6.Lib.Part
import Xv6.Mm.Vm

/-!
# Where frames come from

The functions of `vm.rs` that call `kalloc` test what it returns for null, although the
kernel's own `kalloc` panics before it would return that.  Here they are over any allocator:
memory is a part of its state, and `kalloc` answers with null or with a frame.

* `Allocator` — an allocator, with the functions of `vm.rs` over it.
* `kernel` — the kernel's; its functions are those of `Xv6.Mm.Vm`.
* `oracle` — one that answers by a list of refusals.
* `Allocator.Grants` — what the functions rely on: a frame is the first of the free list.
-/

namespace Xv6.Mm

open Lib Prog

/-- An allocator of frames, over a state that memory is a part of. -/
structure Allocator (τ : Type) where
  /-- Memory. -/
  get : τ → Mem
  /-- Replace it. -/
  put : Mem → τ → τ
  part : Prog.IsPart get put
  /-- `kalloc`: null or a frame. -/
  kalloc : Prog τ (Option ℕ)

namespace Allocator

variable {τ α : Type} (A : Allocator τ)

/-- Code that does not call `kalloc`. -/
def on (p : Prog Mem α) : Prog τ α := p.onPart A.get A.put

/-! ## The functions of `vm.rs` -/

/-- `setupkvm`. -/
def setupkvm : Prog τ (Option ℕ) := do
  let pml4 ← A.kalloc
  match pml4 with
  | none => pure none
  | some p => do
    A.on (.change fun m => m.write p (Page.fill 0))
    A.on (.change fun m => m.setEntry p 256 (mkEntry m.kpdpt (PTE_P ||| PTE_W)))
    pure (some p)

/-- One level of `walkpgdir`, with `alloc` set. -/
def nextTable (t i : ℕ) : Prog τ (Option ℕ) := do
  let e ← A.on (.look fun m => (m.ram t).entry i)
  if present e then pure (some (frameOf e))
  else do
    let p ← A.kalloc
    match p with
    | none => pure none
    | some p => do
      A.on (.change fun m => m.write p (Page.fill 0))
      A.on (.change fun m => m.setEntry t i (mkEntry p (PTE_P ||| PTE_W ||| PTE_U)))
      pure (some p)

/-- `walkpgdir`, with `alloc` set. -/
def walkpgdir (pml4 va : ℕ) : Prog τ (Option (ℕ × ℕ)) := do
  let pdp ← A.nextTable pml4 (PMX va)
  match pdp with
  | none => pure none
  | some pdp => do
    let pd ← A.nextTable pdp (PDPX va)
    match pd with
    | none => pure none
    | some pd => do
      let pgtab ← A.nextTable pd (PDX va)
      match pgtab with
      | none => pure none
      | some pgtab => pure (some (pgtab, PTX va))

/-- The loop of `mappages`. -/
def mapLoop (pgdir last perm : ℕ) : ℕ → ℕ → ℕ → Prog τ ℤ
  | 0, _, _ => pure 0
  | n + 1, a, pa => do
    let pte ← A.walkpgdir pgdir a
    match pte with
    | none => pure (-1)
    | some (t, i) => do
      A.on (.panicIf (fun m => present ((m.ram t).entry i)) "remap")
      A.on (.change fun m => m.setEntry t i (mkEntry pa (perm ||| PTE_P)))
      if a = last then pure 0
      else do
        let a ← add64 a PGSIZE
        mapLoop pgdir last perm n a (pa + 1)

/-- `mappages`. -/
def mappages (pgdir va size pa perm : ℕ) : Prog τ ℤ := do
  let a := PGROUNDDOWN va
  let sum ← add64 va size
  let top ← subU sum 1
  let last := PGROUNDDOWN top
  A.mapLoop pgdir last perm ((last - a) / PGSIZE + 1) a pa

/-- What the loop of `allocuvm` does when it is refused a frame: `o` is the one it holds. -/
def undo (pgdir oldsz newsz : ℕ) (o : Option ℕ) : Prog τ ℕ := do
  let _ ← A.on (deallocuvm pgdir newsz oldsz)
  match o with
  | none => pure 0
  | some f => do
    A.on (kfree f)
    pure 0

/-- The loop of `allocuvm`. -/
def allocLoop (pgdir oldsz newsz : ℕ) : ℕ → ℕ → Prog τ ℕ
  | 0, _ => pure newsz
  | n + 1, a =>
    if a < newsz then do
      let mem ← A.kalloc
      match mem with
      | none => A.undo pgdir oldsz newsz none
      | some f => do
        A.on (.change fun m => { m.write f (Page.fill 0) with granted := m.granted ++ [f] })
        let r ← A.mappages pgdir a PGSIZE f (PTE_W ||| PTE_U)
        if r < 0 then A.undo pgdir oldsz newsz (some f)
        else do
          let a ← add64 a PGSIZE
          allocLoop pgdir oldsz newsz n a
    else pure newsz

/-- `allocuvm`. -/
def allocuvm (pgdir oldsz newsz : ℕ) : Prog τ ℕ := do
  if KERNBASE ≤ newsz then pure 0
  else if newsz < oldsz then pure oldsz
  else do
    let a ← PGROUNDUP oldsz
    A.allocLoop pgdir oldsz newsz (newsz / PGSIZE + 1) a

/-- The loop of `copyuvm`. -/
def copyLoop (pgdir d sz : ℕ) : ℕ → ℕ → Prog τ (Option ℕ)
  | 0, _ => pure (some d)
  | n + 1, i =>
    if i < sz then do
      let pte ← A.on (Mm.walkpgdir pgdir i false)
      match pte with
      | none => .panic "copyuvm: pte should exist"
      | some (t, j) => do
        let e ← A.on (.look fun m => (m.ram t).entry j)
        if !present e then .panic "copyuvm: page not present"
        else do
          let mem ← A.kalloc
          match mem with
          | none => do
            A.on (freevm (some d))
            pure none
          | some f => do
            A.on (.change fun m => m.write f (m.ram (frameOf e)))
            let r ← A.mappages d i PGSIZE f (flagsOf e)
            if r < 0 then do
              A.on (freevm (some d))
              pure none
            else do
              let i ← add64 i PGSIZE
              copyLoop pgdir d sz n i
    else pure (some d)

/-- `copyuvm`. -/
def copyuvm (pgdir sz : ℕ) : Prog τ (Option ℕ) := do
  let d ← A.setupkvm
  match d with
  | none => pure none
  | some d => A.copyLoop pgdir d sz (sz / PGSIZE + 1) PGSIZE

/-! ## Rules -/

variable {A} {E : String → Prop} {s : τ}

@[simp] theorem get_put (m : Mem) (s : τ) : A.get (A.put m s) = m := A.part.get_put m s

@[simp] theorem put_put (m m' : Mem) (s : τ) : A.put m (A.put m' s) = A.put m s :=
  A.part.put_put m m' s

@[simp] theorem put_get (s : τ) : A.put (A.get s) s = s := A.part.put_get s

theorem wp_on {p : Prog Mem α} {Q : α → τ → Prop} :
    (A.on p).wp E Q s ↔ p.wp E (fun a m => Q a (A.put m s)) (A.get s) :=
  Prog.wp_onPart A.part

@[simp] theorem wp_on_look {f : Mem → α} {Q : α → τ → Prop} :
    (A.on (.look f)).wp E Q s ↔ Q (f (A.get s)) s := by
  rw [wp_on, wp_look, A.part.put_get]

@[simp] theorem wp_on_change {u : Mem → Mem} {Q : Unit → τ → Prop} :
    (A.on (.change u)).wp E Q s ↔ Q () (A.put (u (A.get s)) s) := by
  rw [wp_on, wp_change]

@[simp] theorem wp_on_panicIf {c : Mem → Bool} {msg : String} {Q : Unit → τ → Prop} :
    (A.on (.panicIf c msg)).wp E Q s ↔ (c (A.get s) = true → E msg) ∧
      (c (A.get s) = false → Q () s) := by
  rw [wp_on, wp_panicIf, A.part.put_get]

/-- The room a state has is what is left of that of another once the frames between the two
lists are taken. -/
def Leaves (room : τ → ℕ → List ℕ → Prop) (s : τ) (l : List ℕ) (s' : τ) (l' : List ℕ) : Prop :=
  ∀ k n, l.length = k + l'.length → room s (k + n) l → room s' n l'

/-- What the callers of `kalloc` rely on: where there is `room` it takes the first frame of
the list, or answers with null if `F` says that it may. -/
structure Grants (A : Allocator τ) (E : String → Prop) (room : τ → ℕ → List ℕ → Prop)
    (F : List ℕ → Prop) :
    Prop where
  /-- Room for some frames is room for fewer. -/
  le : ∀ {s n n' l}, room s n l → n' ≤ n → room s n' l
  /-- It does not depend on the contents of memory. -/
  put : ∀ {s n l m}, room s n l → room (A.put m s) n l
  wp_kalloc : ∀ {s l} {Q : Option ℕ → τ → Prop}, Chain (A.get s).ram (A.get s).freelist l →
    room s 1 l →
    (F l → ∀ s', A.get s' = A.get s → Q none s') →
    (∀ s' f l', l = f :: l' → A.get s' = (A.get s).popped → Leaves room s l s' l' → Q (some f) s') →
      A.kalloc.wp E Q s

namespace Leaves

variable {room : τ → ℕ → List ℕ → Prop} {s' s'' : τ} {l l' l'' used : List ℕ} {n n' k : ℕ}

theorem refl : Leaves room s l s l := by
  intro k n hk hr
  obtain rfl : k = 0 := by omega
  rwa [Nat.zero_add] at hr

theorem trans (h : Leaves room s l s' l') (h' : Leaves room s' l' s'' l'')
    (hl : l'.length ≤ l.length) (hl' : l''.length ≤ l'.length) : Leaves room s l s'' l'' := by
  intro k n hk hr
  refine h' (l'.length - l''.length) n (by omega) (h (l.length - l'.length) _ (by omega) ?_)
  rwa [show l.length - l'.length + (l'.length - l''.length + n) = k + n by omega]

theorem left {F : List ℕ → Prop} (h : Leaves room s l s' l') (hA : A.Grants E room F)
    (hr : room s n l)
    (hl : l = used ++ l') (hk : used.length = k) (hn : k + n' ≤ n) : room s' n' l' :=
  h k n' (by rw [hl, List.length_append, hk]) (hA.le hr hn)

theorem put {F : List ℕ → Prop} (h : Leaves room s l s' l') (hA : A.Grants E room F) (m : Mem) :
    Leaves room s l (A.put m s') l' := fun k n hk hr => hA.put (h k n hk hr)

end Leaves

end Allocator

/-! ## The kernel's allocator -/

/-- The kernel's own. -/
def kernel : Allocator Mem where
  get := id
  put m _ := m
  part := ⟨fun _ _ => rfl, fun _ => rfl, fun _ _ _ => rfl⟩
  kalloc := kalloc

theorem kernel_on {α : Type} (p : Prog Mem α) : kernel.on p = p := by
  induction p with
  | ret a => rfl
  | panic msg => rfl
  | step g u n ih => exact congrArg (Prog.step g u) (funext ih)

/-- It has the room the list has, or panics. -/
theorem kernel_grants (E : String → Prop) :
    kernel.Grants E (fun _ => Spare E) (fun _ => False) where
  le h hn := h.imp_right fun hle => hn.trans hle
  put h := h
  wp_kalloc hc hr _ hQ := wp_kalloc hc hr fun f l' hl => hQ _ f l' hl rfl fun k n hk hr => by
    refine hr.imp_right fun hle => ?_
    omega

theorem kernel_setupkvm : kernel.setupkvm = setupkvm := rfl

theorem kernel_walkpgdir (r va : ℕ) : kernel.walkpgdir r va = walkpgdir r va true := rfl

theorem kernel_mapLoop (r last perm n : ℕ) : ∀ a pa,
    kernel.mapLoop r last perm n a pa = mapLoop r last perm n a pa := by
  induction n with
  | zero => exact fun _ _ => rfl
  | succ n ih =>
    refine fun a pa => congrArg (Prog.bind (walkpgdir r a true)) (funext fun o => ?_)
    cases o with
    | none => rfl
    | some x => simp only [kernel_on, ih]

theorem kernel_mappages (r va size pa perm : ℕ) :
    kernel.mappages r va size pa perm = mappages r va size pa perm := by
  simp only [Allocator.mappages, mappages, kernel_mapLoop]

theorem kernel_allocLoop (r oldsz newsz n : ℕ) : ∀ a,
    kernel.allocLoop r oldsz newsz n a = allocLoop r oldsz newsz n a := by
  induction n with
  | zero => exact fun _ => rfl
  | succ n ih =>
    intro a
    rw [Allocator.allocLoop, allocLoop]
    simp only [Allocator.undo, kernel_on, kernel_mappages, ih]
    rfl

theorem kernel_allocuvm (r oldsz newsz : ℕ) :
    kernel.allocuvm r oldsz newsz = allocuvm r oldsz newsz := by
  simp only [Allocator.allocuvm, allocuvm, kernel_allocLoop]

theorem kernel_copyLoop (r d sz n : ℕ) : ∀ i, kernel.copyLoop r d sz n i = copyLoop r d sz n i := by
  induction n with
  | zero => exact fun _ => rfl
  | succ n ih =>
    intro i
    rw [Allocator.copyLoop, copyLoop]
    split_ifs with hlt
    · rw [kernel_on]
      refine congrArg (Prog.bind (walkpgdir r i false)) (funext fun o => ?_)
      cases o with
      | none => rfl
      | some x =>
        simp only [kernel_on]
        refine congrArg (Prog.bind _) (funext fun e => ?_)
        split_ifs
        · rfl
        · refine congrArg (Prog.bind kalloc) (funext fun mem => ?_)
          cases mem with
          | none => rfl
          | some f => simp only [kernel_mappages, ih]
    · rfl

theorem kernel_copyuvm (r sz : ℕ) : kernel.copyuvm r sz = copyuvm r sz := by
  refine congrArg (Prog.bind setupkvm) (funext fun o => ?_)
  cases o with
  | none => rfl
  | some d => exact kernel_copyLoop r d sz _ _

/-! ## An allocator that may refuse -/

/-- Memory, and which of the next calls of `kalloc` are refused. -/
structure Trial where
  mem : Mem
  refused : ℕ → Bool

/-- `kalloc` as its callers expect it: null whenever it is refused or the list is empty. -/
def Trial.kalloc : Prog Trial (Option ℕ) := do
  let no ← .look fun s => s.refused 0 || decide (s.mem.freelist = 0)
  .change fun s => { s with refused := fun n => s.refused (n + 1) }
  if no then pure none
  else do
    let r ← .look fun s => s.mem.freelist
    .change fun s => { s with mem := s.mem.popped }
    pure (some r)

/-- The allocator that refuses as it is told. -/
def oracle : Allocator Trial where
  get := Trial.mem
  put m s := { s with mem := m }
  part := ⟨fun _ _ => rfl, fun _ => rfl, fun _ _ _ => rfl⟩
  kalloc := Trial.kalloc

variable {E : String → Prop} {s : Trial} {l : List ℕ}

theorem Trial.wp_kalloc {Q : Option ℕ → Trial → Prop} (hc : Chain s.mem.ram s.mem.freelist l)
    (hnull : s.refused 0 = true ∨ l = [] → Q none { s with refused := fun n => s.refused (n + 1) })
    (hQ : ∀ f l', l = f :: l' → s.refused 0 = false →
      Q (some f) ⟨s.mem.popped, fun n => s.refused (n + 1)⟩) : Trial.kalloc.wp E Q s := by
  simp only [Trial.kalloc, bind_eq, wp_bind, wp_look, wp_change]
  cases l with
  | nil =>
    have hempty : s.mem.freelist = 0 := hc
    rw [if_pos (by simp [hempty])]
    exact hnull (Or.inr rfl)
  | cons f l =>
    have hhead : s.mem.freelist = f := hc.1
    cases hno : s.refused 0 with
    | true =>
      rw [if_pos (by simp)]
      exact hnull (Or.inl hno)
    | false =>
      rw [if_neg (by simpa [hhead] using hc.2.1)]
      simp only [wp_bind, wp_look, wp_change, hhead]
      exact hQ f l rfl hno

theorem oracle_grants (E : String → Prop) :
    oracle.Grants E (fun _ _ _ => True) (fun _ => True) where
  le _ _ := trivial
  put _ := trivial
  wp_kalloc hc _ hnull hQ := Trial.wp_kalloc hc (fun _ => hnull trivial _ rfl)
    fun f l' hl _ => hQ _ f l' hl rfl fun _ _ _ _ => trivial

/-- The call that finds this list is the first that is refused, if `refused` is asked from the
time the list was `l₀`. -/
def FirstRefused (refused : ℕ → Bool) (l₀ l : List ℕ) : Prop :=
  (refused (l₀.length - l.length) = true ∨ l = []) ∧ ∀ i < l₀.length - l.length, refused i = false

/-- Every call so far has been granted, and the next answers follow. -/
def AllGranted (refused : ℕ → Bool) (l₀ : List ℕ) (s : Trial) (l : List ℕ) : Prop :=
  l.length ≤ l₀.length ∧ (∀ i, s.refused i = refused (l₀.length - l.length + i)) ∧
    ∀ i < l₀.length - l.length, refused i = false

theorem oracle_grants_first (E : String → Prop) (refused : ℕ → Bool) (l₀ : List ℕ) :
    oracle.Grants E (fun s _ l => AllGranted refused l₀ s l) (FirstRefused refused l₀) where
  le h _ := h
  put h := h
  wp_kalloc {s l Q} hc hr hnull hQ := by
    obtain ⟨hlen, hnext, hall⟩ := hr
    have hzero := hnext 0
    rw [Nat.add_zero] at hzero
    refine Trial.wp_kalloc hc (fun hno => hnull ⟨hno.imp_left fun hno => hzero ▸ hno, hall⟩ _ rfl)
      ?_
    intro f l' hl hno
    subst hl
    rw [hzero] at hno
    rw [List.length_cons] at hlen hnext hall hno
    refine hQ _ f l' rfl rfl fun k n hk _ => ⟨by omega, fun i => ?_, fun i hi => ?_⟩
    · change s.refused (i + 1) = _
      rw [hnext, show l₀.length - (l'.length + 1) + (i + 1) = l₀.length - l'.length + i by omega]
    · rcases Nat.lt_or_ge i (l₀.length - (l'.length + 1)) with hlt | hge
      · exact hall i hlt
      · rw [show i = l₀.length - (l'.length + 1) by omega, hno]

end Xv6.Mm
