import Xv6.Param
import Xv6.Sys.Args
import Xv6.Mm.Exhaustion

/-!
# The first stack of a program

The part of `exec` in `crates/proc/src/exec.rs` from the two pages above the loaded program to
the values of the saved registers: the lower page is the guard, which `clearpteu` takes from
the user, and onto the upper one `exec` pushes the argument strings and below them the block of
pointers that `main` gets.

* `wp_copyout_guard` — no copy runs through the guard page.
* `wp_copyout_inside` — a copy into the stack page.
* `Laid` — the strings on the page, each where its pointer says.
* `exec_builds_stack` — what the program finds.
-/

namespace Xv6.Sys

open Lib Prog Mm List

/-- Words as they lie in memory. -/
def words (ws : List ℕ) : List UInt8 := ws.flatMap fun w => (List.range 8).map (byteOf w)

/-- The loop of `exec` over the arguments, with the addresses it has put into `ustack`. -/
def pushArgs (pgdir : ℕ) : List (List UInt8) → ℕ → List ℕ → Prog Mem (Option (ℕ × List ℕ))
  | [], sp, us => pure (some (sp, us))
  | arg :: rest, sp, us =>
    if MAXARG ≤ us.length then pure none
    else do
      let top ← subU sp (arg.length + 1)
      let ret ← copyout pgdir (top / 8 * 8) (arg ++ [0])
      if ret < 0 then pure none
      else pushArgs pgdir rest (top / 8 * 8) (us ++ [top / 8 * 8])

/-- The registers `exec` saves for the program, and its size. -/
structure Image where
  rdi : ℕ
  rsi : ℕ
  rsp : ℕ
  sz : ℕ

/-- The pushes of `exec` below `sz`, and the registers: the strings, then `ustack`. -/
def pushAll (pgdir sz : ℕ) (argv : List (List UInt8)) : Prog Mem (Option Image) := do
  let pushed ← pushArgs pgdir argv sz []
  match pushed with
  | none => pure none
  | some c => do
    let rsi ← subU c.1 ((c.2.length + 1) * 8)
    let rsp ← subU c.1 ((c.2.length + 2) * 8)
    let ret ← copyout pgdir rsp (words ((2 ^ 64 - 1) :: (c.2 ++ [0])))
    if ret < 0 then pure none else pure (some ⟨c.2.length, rsi, rsp, sz⟩)

/-- The stack set-up of `exec` for a program loaded up to `sz`, `none` where it goes to `bad`; a
string of `argv` is given without its `NUL`. -/
def pushStack (pgdir sz : ℕ) (argv : List (List UInt8)) : Prog Mem (Option Image) := do
  let sz ← PGROUNDUP sz
  let top ← add64 sz (2 * PGSIZE)
  let sz ← allocuvm pgdir sz top
  if sz = 0 then pure none
  else do
    let guard ← subU sz (2 * PGSIZE)
    clearpteu pgdir guard
    pushAll pgdir sz argv

/-- The same with `goto_bad`, which frees the new table: `none` is the `-1` of `exec`. -/
def execStack (pgdir sz : ℕ) (argv : List (List UInt8)) : Prog Mem (Option Image) := do
  let img ← pushStack pgdir sz argv
  match img with
  | none => do
    freevm (some pgdir)
    pure none
  | some img => pure (some img)

/-! ## Copies to the user -/

variable {κ σ : Type} {T : κ → Option ℕ} {S : σ → Option ℕ} {k : κ} {m m' : Mem} {l : List ℕ}
  {r V g v f o n va sz sp : ℕ} {buf arg : List UInt8} {argv : List (List UInt8)} {E : String → Prop}

/-- Where `uva2ka` finds a page. -/
def target (ram : ℕ → Page) (r v : ℕ) : Option ℕ :=
  if !present (pte ram r v) || !isUser (pte ram r v) then none else some (frameOf (pte ram r v))

theorem wp_uva2ka {Q : Option ℕ → Mem → Prop} (hQ : Q (target m.ram r (pageOf va)) m) :
    (uva2ka r va).wp E Q m := by
  simp only [uva2ka, bind_eq, wp_bind]
  refine wp_walkpgdir_look ?_
  rw [slot]
  cases ht : node m.ram r (tablePath (pageOf va)) with
  | none =>
    have hpte : pte m.ram r (pageOf va) = 0 := by rw [pte, ht]
    rw [target, hpte] at hQ
    exact hQ
  | some t =>
    rw [target, pte_of_node ht] at hQ
    simp only [Option.map_some, wp_bind, wp_look]
    split_ifs at hQ ⊢
    · exact hQ
    · exact hQ

/-- The guard page is not the user's, and the page above it is, in frame `g`. -/
structure Ready (m : Mem) (r V g : ℕ) : Prop where
  lt : V + 1 < UPAGES
  /-- No page of the user is a table. -/
  apart : ∀ v f, v < UPAGES → node m.ram r (index v) = some f → ∀ p, Table p →
    node m.ram r p ≠ some f
  guard : isUser (pte m.ram r V) = false
  user : isUser (pte m.ram r (V + 1)) = true
  present : present (pte m.ram r (V + 1)) = true
  frame : frameOf (pte m.ram r (V + 1)) = g

/-- Writing to a page of the user changes no entry. -/
theorem Ready.write (h : Ready m r V g) (hv : v < UPAGES) (hf : node m.ram r (index v) = some f)
    (pg : Page) :
    Ready (m.write f pg) r V g := by
  have hram : ∀ u, u ≠ f → (m.write f pg).ram u = m.ram u :=
    fun u hu => Function.update_of_ne hu _ _
  have hnot := h.apart v f hv hf
  have hlt := h.lt
  have hpte : ∀ w < UPAGES, pte (m.write f pg).ram r w = pte m.ram r w :=
    fun w hw => pte_write hram hnot hw
  refine ⟨hlt, fun w u hw hu p hp => ?_, ?_, ?_, ?_, ?_⟩
  · rw [node_write hram hnot (user_index hw)] at hu
    rw [node_write hram hnot hp.1]
    exact h.apart w u hw hu p hp
  · rw [hpte V (by omega)]
    exact h.guard
  · rw [hpte _ hlt]
    exact h.user
  · rw [hpte _ hlt]
    exact h.present
  · rw [hpte _ hlt]
    exact h.frame

theorem node_of_target (h : target m.ram r v = some f) : node m.ram r (index v) = some f := by
  rw [target] at h
  split_ifs at h with hno
  rw [Bool.or_eq_true, not_or] at hno
  rw [node_index, if_pos (by simpa using hno.1)]
  exact h

theorem pageOf_PGROUNDDOWN (va : ℕ) : pageOf (PGROUNDDOWN va) = pageOf va :=
  Nat.mul_div_cancel _ (by decide)

/-- A copy that would touch the guard page fails. -/
theorem wp_copyout_guard (h : Ready m r V g) (hva : pageOf va ≤ V) (hlen : 0 < buf.length)
    (hend : V * PGSIZE < va + buf.length) (hn : V < pageOf va + n) :
    (copyoutLoop r n va buf).wp E (fun ret _ => ret < 0) m := by
  induction n generalizing m va buf with
  | zero => omega
  | succ n ih =>
    have hVlt := h.lt
    rw [copyoutLoop, if_pos hlen]
    simp only [bind_eq, wp_bind]
    refine wp_uva2ka ?_
    rw [pageOf_PGROUNDDOWN]
    cases ht : target m.ram r (pageOf va) with
    | none => exact (by decide : (-1 : ℤ) < 0)
    | some f =>
      have hne : pageOf va ≠ V := by
        intro he
        rw [target, he, h.guard] at ht
        simp at ht
      have hnode := node_of_target ht
      change va / 4096 ≤ V at hva
      change va / 4096 ≠ V at hne
      change V * 4096 < va + buf.length at hend
      change V + 1 < 2 ^ 35 at hVlt
      change V < va / 4096 + (n + 1) at hn
      have hpage : va / 4096 < 2 ^ 35 := by omega
      have hk :
        min (PGSIZE - (va - PGROUNDDOWN va)) buf.length = PGSIZE - (va - PGROUNDDOWN va) := by
        change min (4096 - (va - va / 4096 * 4096)) buf.length = 4096 - (va - va / 4096 * 4096)
        omega
      have hsum : PGROUNDDOWN va + PGSIZE < 2 ^ 64 := by
        have hle : PGROUNDDOWN va ≤ va := Nat.div_mul_le_self va PGSIZE
        have hsz : PGSIZE = 4096 := rfl
        omega
      have hnext : pageOf (PGROUNDDOWN va + PGSIZE) = va / 4096 + 1 := by
        change (va / 4096 * 4096 + 4096) / 4096 = va / 4096 + 1
        omega
      simp only [wp_bind, wp_change]
      rw [add64_of_lt hsum, hk]
      refine ih (h.write hpage hnode _) ?_ ?_ ?_ ?_
      · rw [hnext]
        omega
      · rw [length_drop]
        change 0 < buf.length - (4096 - (va - va / 4096 * 4096))
        omega
      · rw [length_drop]
        change V * 4096 < va / 4096 * 4096 + 4096 + (buf.length - (4096 - (va - va / 4096 * 4096)))
        omega
      · rw [hnext]
        omega

theorem copyoutLoop_nil (r n va : ℕ) : copyoutLoop r n va [] = .ret 0 := by
  cases n with
  | zero => rfl
  | succ n =>
    rw [copyoutLoop, if_neg (by decide)]
    rfl

theorem wp_copyout_inside (h : Ready m r V g) (hlen : 0 < buf.length) (ho : o + buf.length ≤ PGSIZE)
    {Q : ℤ → Mem → Prop} (hQ : Q 0
      (m.write g (splice (m.ram g) o buf.length fun i => buf.getD i 0))) :
    (copyout r ((V + 1) * PGSIZE + o) buf).wp E Q m := by
  have hVlt := h.lt
  change V + 1 < 2 ^ 35 at hVlt
  change o + buf.length ≤ 4096 at ho
  have hdown : PGROUNDDOWN ((V + 1) * PGSIZE + o) = (V + 1) * PGSIZE := by
    change ((V + 1) * 4096 + o) / 4096 * 4096 = (V + 1) * 4096
    omega
  have hpage : pageOf ((V + 1) * PGSIZE) = V + 1 := Nat.mul_div_cancel _ (by decide)
  have hk : min (PGSIZE - o) buf.length = buf.length := by
    change min (4096 - o) buf.length = buf.length
    omega
  have hsum : (V + 1) * PGSIZE + PGSIZE < 2 ^ 64 := by
    change (V + 1) * 4096 + 4096 < 2 ^ 64
    omega
  have htarget : target m.ram r (V + 1) = some g := by
    rw [target, h.present, h.user, h.frame]
    rfl
  rw [copyout, copyoutLoop, if_pos hlen]
  simp only [bind_eq, wp_bind]
  refine wp_uva2ka ?_
  rw [hdown, hpage, htarget]
  simp only [wp_bind, wp_change]
  rw [add64_of_lt hsum, Nat.add_sub_cancel_left, hk, drop_length, wp_ret, copyoutLoop_nil]
  exact hQ

/-- A copy whose end lies between the two pages goes wholly into the upper one, or fails. -/
theorem wp_copyout_stack (h : Ready m r V g) (hlen : 0 < buf.length)
    (htop : va + buf.length ≤ (V + 2) * PGSIZE)
    (hlow : V * PGSIZE < va + buf.length) {Q : ℤ → Mem → Prop} (hneg : ∀ ret m', ret < 0 → Q ret m')
    (hQ : ∀ o, va = (V + 1) * PGSIZE + o → o + buf.length ≤ PGSIZE →
      Q 0 (m.write g (splice (m.ram g) o buf.length fun i => buf.getD i 0))) :
    (copyout r va buf).wp E Q m := by
  change va + buf.length ≤ (V + 2) * 4096 at htop
  change V * 4096 < va + buf.length at hlow
  by_cases hin : (V + 1) * PGSIZE ≤ va
  · obtain ⟨o, rfl⟩ := Nat.exists_eq_add_of_le hin
    change (V + 1) * 4096 + o + buf.length ≤ (V + 2) * 4096 at htop
    have ho : o + buf.length ≤ PGSIZE := by
      change o + buf.length ≤ 4096
      omega
    exact wp_copyout_inside h hlen ho (hQ o rfl ho)
  · have hout : ¬(V + 1) * 4096 ≤ va := hin
    refine wp_mono (wp_copyout_guard h ?_ hlen hlow ?_) fun ret m' => hneg ret m'
    · change va / 4096 ≤ V
      omega
    · change V < va / 4096 + (buf.length / 4096 + 2)
      omega

/-! ## What lies on the page -/

/-- The strings pushed so far, each with its address, on the page `P` at `base`. -/
structure Laid (base : ℕ) (P : Page) (ps : List (List UInt8 × ℕ)) (sp : ℕ) : Prop where
  low : base ≤ sp
  high : sp ≤ base + PGSIZE
  string : ∀ x ∈ ps, 8 ∣ x.2 ∧ sp ≤ x.2 ∧ x.2 + (x.1.length + 1) ≤ base + PGSIZE ∧
    ∀ j ≤ x.1.length, P (x.2 - base + j) = (x.1 ++ [0]).getD j 0
  /-- Later strings are below. -/
  apart : ps.Pairwise fun x y => y.2 + (y.1.length + 1) ≤ x.2

variable {base : ℕ} {P : Page} {ps : List (List UInt8 × ℕ)}

/-- What is written below the stack pointer leaves the strings alone. -/
theorem Laid.below (h : Laid base P ps sp) (sp' len : ℕ) (hlow : base ≤ sp') (hle : sp' + len ≤ sp)
    (src : ℕ → UInt8) :
    Laid base (splice P (sp' - base) len src) ps sp' where
  low := hlow
  high := by
    have hhigh := h.high
    omega
  string x hx := by
    obtain ⟨hdvd, hsp, htop, hbytes⟩ := h.string x hx
    have hbase := h.low
    refine ⟨hdvd, by omega, htop, fun j hj => ?_⟩
    rw [splice_of_not_mem (Or.inr (by omega))]
    exact hbytes j hj
  apart := h.apart

theorem Laid.push (h : Laid base P ps sp) (arg : List UInt8) (sp' : ℕ) (hlow : base ≤ sp')
    (hle : sp' + (arg.length + 1) ≤ sp) (hdvd : 8 ∣ sp') :
    Laid base (splice P (sp' - base) (arg ++ [0]).length fun i => (arg ++ [0]).getD i 0)
      (ps ++ [(arg, sp')]) sp' := by
  have hlen : (arg ++ [0]).length = arg.length + 1 := length_append
  have hb := h.below sp' (arg ++ [0]).length hlow (by omega) fun i => (arg ++ [0]).getD i 0
  have hhigh := h.high
  refine ⟨hb.low, hb.high, fun x hx => ?_, pairwise_append.2 ⟨h.apart, pairwise_singleton _ _, ?_⟩⟩
  · rcases mem_append.1 hx with hx | hx
    · exact hb.string x hx
    · obtain rfl := mem_singleton.1 hx
      refine ⟨hdvd, le_rfl, by change sp' + (arg.length + 1) ≤ _; omega, fun j hj => ?_⟩
      change j ≤ arg.length at hj
      rw [splice_of_mem (by omega) (by rw [hlen]; omega), Nat.add_sub_cancel_left]
  · intro x hx y hy
    obtain rfl := mem_singleton.1 hy
    exact hle.trans (h.string x hx).2.1

theorem wp_subU {a b : ℕ} {Q : ℕ → Mem → Prop} (hQ : b ≤ a → Q (a - b) m) :
    (subU a b).wp anyPanic Q m := by
  by_cases h : b ≤ a
  · rw [subU_of_le h]
    exact hQ h
  · rw [subU, if_neg h]
    trivial

/-- The frame the stack page is in, after it has been written. -/
theorem ram_write_self (m : Mem) (g : ℕ) (pg : Page) : (m.write g pg).ram g = pg :=
  Function.update_self ..

theorem Ready.node (h : Ready m r V g) : node m.ram r (index (V + 1)) = some g := by
  rw [node_index, if_pos h.present, h.frame]

/-- The loop over the arguments, if it goes through, has laid them all. -/
theorem wp_pushArgs (argv : List (List UInt8)) (ps : List (List UInt8 × ℕ)) (sp : ℕ)
    (h : Ready m r V g) (hl : Laid ((V + 1) * PGSIZE) (m.ram g) ps sp) :
    (pushArgs r argv sp (ps.map Prod.snd)).wp anyPanic (fun out m' => ∀ c, out = some c →
      ∃ qs, qs.map Prod.fst = argv ∧ c.2 = (ps ++ qs).map Prod.snd ∧ Ready m' r V g ∧
        Laid ((V + 1) * PGSIZE) (m'.ram g) (ps ++ qs) c.1) m := by
  induction argv generalizing m ps sp with
  | nil =>
    intro c hc
    obtain rfl := Option.some.inj hc
    exact ⟨[], rfl, by rw [List.append_nil], h, by rw [List.append_nil]; exact hl⟩
  | cons arg rest ih =>
    have hhigh : sp ≤ (V + 1) * 4096 + 4096 := hl.high
    have hlow : (V + 1) * 4096 ≤ sp := hl.low
    have hlen : (arg ++ [0]).length = arg.length + 1 := length_append
    rw [pushArgs]
    split_ifs with hmany
    · exact fun c hc => absurd hc.symm (Option.some_ne_none c)
    · simp only [bind_eq, wp_bind]
      refine wp_subU fun hle => ?_
      have hround : (sp - (arg.length + 1)) / 8 * 8 + (arg.length + 1) ≤ sp ∧
          sp < (sp - (arg.length + 1)) / 8 * 8 + (arg.length + 1) + 8 := by omega
      refine wp_copyout_stack h (by omega) ?_ ?_ (fun ret m' hneg => ?_) fun o ho hfit => ?_
      · rw [hlen]
        change _ ≤ (V + 2) * 4096
        omega
      · rw [hlen]
        change V * 4096 < _
        omega
      · rw [if_pos hneg]
        exact fun c hc => absurd hc.symm (Option.some_ne_none c)
      · rw [if_neg (lt_irrefl _)]
        have hoff : o = (sp - (arg.length + 1)) / 8 * 8 - (V + 1) * PGSIZE := by omega
        have hpush := hl.push arg ((sp - (arg.length + 1)) / 8 * 8) (by omega) hround.1
          (Dvd.intro_left _ rfl)
        rw [← hoff] at hpush
        have hih := ih (ps ++ [(arg, (sp - (arg.length + 1)) / 8 * 8)])
          ((sp - (arg.length + 1)) / 8 * 8)
          (h.write h.lt h.node _) (by rw [ram_write_self]; exact hpush)
        rw [map_append, map_singleton] at hih
        refine wp_mono hih fun out m' hout c hc => ?_
        obtain ⟨qs, hfst, hsnd, hready, hlaid⟩ := hout c hc
        refine ⟨(arg, (sp - (arg.length + 1)) / 8 * 8) :: qs, by rw [map_cons, hfst], ?_,
          hready, ?_⟩
        · rw [hsnd, append_assoc, singleton_append]
        · rwa [append_assoc, singleton_append] at hlaid

/-! ## The block of pointers -/

theorem length_words (ws : List ℕ) : (words ws).length = 8 * ws.length := by
  induction ws with
  | nil => rfl
  | cons w ws ih =>
    rw [words, flatMap_cons, length_append, length_map, length_range, length_cons]
    rw [words] at ih
    omega

/-- Words are read back where they lie. -/
theorem read_words {f : ℕ → UInt8} (off : ℕ) (ws : List ℕ) (hws : ∀ w ∈ ws, w < 2 ^ 64)
    (h : ∀ j < 8 * ws.length, f (off + j) = (words ws).getD j 0) :
    (List.range ws.length).map (fun i => readLE f (off + 8 * i) 8) = ws := by
  induction ws generalizing off with
  | nil => rfl
  | cons w ws ih =>
    have hcons : words (w :: ws) = (List.range 8).map (byteOf w) ++ words ws := rfl
    have hlen8 : ((List.range 8).map (byteOf w)).length = 8 := by simp
    have hhead : readLE f off 8 = w := by
      have hw : w % 256 ^ 8 = w := Nat.mod_eq_of_lt (hws w mem_cons_self)
      rw [← hw, ← readLE_splice_byteOf f off 8 w]
      refine readLE_congr fun i h₁ h₂ => ?_
      have hbyte := h (i - off) (by rw [length_cons]; omega)
      rw [show off + (i - off) = i by omega, hcons, getD_append _ _ _ _ (by rw [hlen8]; omega)]
        at hbyte
      rw [hbyte, splice_of_mem h₁ h₂, getD_eq_getElem _ _ (by rw [hlen8]; omega), getElem_map,
        getElem_range]
    have htail := ih (off + 8) (fun w hw => hws w (mem_cons_of_mem _ hw)) fun j hj => by
      have hbyte := h (8 + j) (by rw [length_cons]; omega)
      rw [hcons, getD_append_right _ _ _ _ (by rw [hlen8]; omega), hlen8,
        Nat.add_sub_cancel_left] at hbyte
      rw [Nat.add_assoc]
      exact hbyte
    rw [length_cons, range_succ_eq_map, map_cons, map_map, Nat.mul_zero, Nat.add_zero, hhead]
    refine congrArg (w :: ·) (Eq.trans ?_ htail)
    refine map_congr_left fun i _ => ?_
    change readLE f (off + 8 * (i + 1)) 8 = readLE f (off + 8 + 8 * i) 8
    rw [show off + 8 * (i + 1) = off + 8 + 8 * i by omega]

/-! ## The guard page -/

section Guard

variable {fg : ℕ} {fl : ℕ}

theorem isUser_mkEntry (h : fl < PGSIZE) : isUser (mkEntry f fl) = fl.testBit 2 := by
  rw [isUser, mkEntry_eq h, Nat.testBit_two_pow_mul_add f (i := 12) h, if_pos (by decide)]

theorem clearUser_fresh (f : ℕ) :
    clearUser (mkEntry f (PTE_P ||| PTE_W ||| PTE_U)) = mkEntry f (PTE_P ||| PTE_W) := by
  have hfl : (PTE_P ||| PTE_W ||| PTE_U) = 7 := by decide
  have hfl' : (PTE_P ||| PTE_W) = 3 := by decide
  rw [hfl, hfl', clearUser, isUser_mkEntry (by decide), if_pos (by decide), mkEntry_eq (by decide),
    mkEntry_eq (by decide)]
  change 2 ^ 12 * f + 7 - 4 = 2 ^ 12 * f + 3
  omega

/-- An entry that leads where the old one led changes no path. -/
theorem child_setEntry {ram ram' : ℕ → Page} {t i e : ℕ} (hself : ram' t = (ram t).setEntry i e)
    (hother : ∀ u, u ≠ t → ram' u = ram u) (he : e < 2 ^ 64)
      (hp : present e = present ((ram t).entry i))
    (hf : frameOf e = frameOf ((ram t).entry i)) : child ram' = child ram := by
  funext u j
  by_cases hu : u = t
  · by_cases hj : j = i
    · rw [child, child, hu, hself, hj, Page.entry_setEntry_self he, hp, hf]
    · exact child_congr (by rw [hu, hself, Page.entry_setEntry_of_ne hj])
  · exact child_congr (by rw [hother u hu])

/-- `clearpteu` on the lower of two fresh pages. -/
theorem wp_clearpteu (h : Owned m l T S) (hk : T k = some r) (hV : V + 1 < UPAGES)
    (hg : pte m.ram r V = mkEntry fg (PTE_P ||| PTE_W ||| PTE_U))
    (hs : pte m.ram r (V + 1) = mkEntry g (PTE_P ||| PTE_W ||| PTE_U)) {Q : Unit → Mem → Prop}
    (hQ : ∀ m', Ready m' r V g → Q () m') : (clearpteu r (V * PGSIZE)).wp E Q m := by
  have hVlt : V < UPAGES := by omega
  have hpage : pageOf (V * PGSIZE) = V := Nat.mul_div_cancel _ (by decide)
  have hpres : ∀ f, present (mkEntry f (PTE_P ||| PTE_W ||| PTE_U)) = true :=
    fun f => present_mkEntry (by decide)
  have hframe : ∀ f, frameOf (mkEntry f (PTE_P ||| PTE_W ||| PTE_U)) = f :=
    fun f => frameOf_mkEntry (by decide)
  have hnodeV : node m.ram r (index V) = some fg := by rw [node_index, hg,
    if_pos (hpres fg), hframe]
  have hlt : mkEntry fg (PTE_P ||| PTE_W) < 2 ^ 64 :=
    mkEntry_lt (h.given hk (user_index hVlt) hnodeV).lt (by decide)
  obtain ⟨t, ht⟩ : ∃ t, node m.ram r (tablePath V) = some t := by
    cases ht : node m.ram r (tablePath V) with
    | some t => exact ⟨t, rfl⟩
    | none =>
      have hzero : pte m.ram r V = 0 := by rw [pte, ht]
      have hno := hpres fg
      rw [← hg, hzero] at hno
      cases hno
  have hold : (m.ram t).entry (V % 512) = mkEntry fg (PTE_P ||| PTE_W ||| PTE_U) :=
    (pte_of_node ht).symm.trans hg
  simp only [clearpteu, bind_eq, wp_bind]
  refine wp_walkpgdir_look ?_
  rw [hpage, slot, ht]
  simp only [Option.map_some, wp_change]
  rw [hold, clearUser_fresh]
  have hself : (m.setEntry t (V % 512) (mkEntry fg (PTE_P ||| PTE_W))).ram t =
      (m.ram t).setEntry (V % 512) (mkEntry fg (PTE_P ||| PTE_W)) := Function.update_self ..
  have hother : ∀ u, u ≠ t → (m.setEntry t (V % 512) (mkEntry fg (PTE_P ||| PTE_W))).ram u =
    m.ram u := fun u hu =>
    Function.update_of_ne hu _ _
  generalize m.setEntry t (V % 512) (mkEntry fg (PTE_P ||| PTE_W)) = m' at hself hother ⊢
  have hchild : child m'.ram = child m.ram := by
    refine child_setEntry hself hother hlt ?_ ?_
    · rw [hold, hpres, present_mkEntry (by decide)]
      rfl
    · rw [hold, hframe, frameOf_mkEntry (by decide)]
  have hnode : ∀ p, node m'.ram r p = node m.ram r p := fun p => by rw [node, hchild]
  have hpteV : pte m'.ram r V = mkEntry fg (PTE_P ||| PTE_W) := by
    rw [pte_of_node ((hnode _).trans ht), hself, Page.entry_setEntry_self hlt]
  have hpteS : pte m'.ram r (V + 1) = pte m.ram r (V + 1) := by
    rw [pte, hnode, pte]
    cases hu : node m.ram r (tablePath (V + 1)) with
    | none => rfl
    | some u =>
      by_cases hut : u = t
      · subst hut
        have hpath := h.path_inj hk (table_tablePath hV).1 (table_tablePath hVlt).1 hu ht
        have hne : (V + 1) % 512 ≠ V % 512 := fun hlast => by
          have := tablePath_inj hV hVlt hpath hlast
          omega
        simp only [hself, Page.entry_setEntry_of_ne hne]
      · simp only [hother u hut]
  refine hQ m' ⟨hV, fun v f hv hf p hp hn => ?_, ?_, ?_, ?_, ?_⟩
  · rw [hnode] at hf hn
    have hpath := congrArg List.length (h.path_inj hk (user_index hv) hp.1 hf hn)
    have hlen := hp.2
    rw [← hpath] at hlen
    exact absurd hlen (by simp [index])
  · rw [hpteV, isUser_mkEntry (by decide)]
    decide
  · rw [hpteS, hs, isUser_mkEntry (by decide)]
    decide
  · rw [hpteS, hs, hpres]
  · rw [hpteS, hs, hframe]

end Guard

/-! ## What the program finds -/

/-- The initial stack of a program that was given `argv`, as it reads it in its own memory. -/
structure Built (argv : List (List UInt8)) (p : Caller) (rsp : ℕ) : Prop where
  /-- The saved `rdi`. -/
  argc : p.tf.rdi = argv.length
  /-- The saved `rsp` is below the saved `rsi`. -/
  below : rsp + 8 = p.tf.rsi
  /-- The return address. -/
  fake : readLE (byteAt p) rsp 8 = 2 ^ 64 - 1
  /-- The strings with their addresses: the words at `rsi` are the addresses and a `0`, and each
  points to an aligned copy; the block, the copies and the end of the memory follow in this
  order, no two copies overlap. -/
  args : ∃ ps : List (List UInt8 × ℕ), ps.map Prod.fst = argv ∧
    (List.range (argv.length + 1)).map (fun i => readLE (byteAt p) (p.tf.rsi + 8 * i) 8) =
      ps.map Prod.snd ++ [0] ∧
    (∀ x ∈ ps, 8 ∣ x.2 ∧ rsp + 8 * (argv.length + 2) ≤ x.2 ∧ x.2 + (x.1.length + 1) ≤ p.sz ∧
      ∀ j ≤ x.1.length, byteAt p (x.2 + j) = (x.1 ++ [0]).getD j 0) ∧
    ps.Pairwise fun x y => y.2 + (y.1.length + 1) ≤ x.2
  /-- All of it in the last page. -/
  inPage : p.sz ≤ rsp + PGSIZE
  aligned : PGSIZE ∣ p.sz

/-- The program reads the stack page in its frame. -/
theorem Ready.byteAt_stack (h : Ready m' r V g) (tf : ArgRegs) (size : ℕ) {j : ℕ} (hj : j < 4096) :
    byteAt ⟨tf, size, m'.ram, r⟩ ((V + 1) * 4096 + j) = m'.ram g j := by
  have hpageOf : pageOf ((V + 1) * 4096 + j) = V + 1 := by
    change ((V + 1) * 4096 + j) / 4096 = V + 1
    omega
  have hmod : ((V + 1) * 4096 + j) % PGSIZE = j := by
    change ((V + 1) * 4096 + j) % 4096 = j
    omega
  rw [byteAt, hpageOf, hmod]
  change m'.ram (frameOf (pte m'.ram r (V + 1))) j = _
  rw [h.frame]

/-- The last write puts the block below the strings. -/
theorem built_of_laid {size : ℕ} (hsize : size = (V + 1) * PGSIZE + PGSIZE) (h : Ready m' r V g)
    (hl : Laid ((V + 1) * PGSIZE) P ps sp) (hlen : argv = ps.map Prod.fst)
      (hsp : ps.length * 8 + 16 ≤ sp) (hfit : (V + 1) * PGSIZE + o = sp - (ps.length + 2) * 8)
    (hpage : m'.ram g = splice P o (8 * (ps.length + 2)) fun i =>
      (words ((2 ^ 64 - 1) :: (ps.map Prod.snd ++ [0]))).getD i 0) :
    Built argv ⟨⟨ps.length, sp - (ps.length + 1) * 8, 0, 0, 0, 0⟩, size, m'.ram, r⟩
      (sp - (ps.length + 2) * 8) := by
  have hlow : (V + 1) * 4096 ≤ sp := hl.low
  have hhigh : sp ≤ (V + 1) * 4096 + 4096 := hl.high
  have hVlt := h.lt
  change V + 1 < 2 ^ 35 at hVlt
  change (V + 1) * 4096 + o = sp - (ps.length + 2) * 8 at hfit
  have hargc : argv.length = ps.length := by rw [hlen, length_map]
  have hdvd : PGSIZE ∣ size := by
    rw [hsize, ← Nat.succ_mul]
    exact Dvd.intro_left _ rfl
  replace hsize : size = (V + 1) * 4096 + 4096 := hsize
  have hbyte : ∀ j < 4096, byteAt ⟨⟨ps.length, sp - (ps.length + 1) * 8, 0, 0, 0, 0⟩, size,
    m'.ram, r⟩
      ((V + 1) * 4096 + j) = m'.ram g j := fun j hj => h.byteAt_stack _ size hj
  have hblock : ∀ j < 8 * (ps.length + 2),
      byteAt ⟨⟨ps.length, sp - (ps.length + 1) * 8, 0, 0, 0, 0⟩, size, m'.ram, r⟩
        (sp - (ps.length + 2) * 8 + j) = (words ((2 ^ 64 - 1) :: (ps.map Prod.snd ++ [0]))).getD j
          0 := by
    intro j hj
    rw [← hfit, Nat.add_assoc, hbyte (o + j) (by omega), hpage, splice_of_mem (by omega) (by omega),
      Nat.add_sub_cancel_left]
  have hwords := read_words _ ((2 ^ 64 - 1) :: (ps.map Prod.snd ++ [0])) (fun w hw => ?_) (by
    rw [length_cons, length_append, length_map, length_singleton]
    exact hblock)
  · rw [length_cons, length_append, length_map, length_singleton, range_succ_eq_map,
      map_cons, map_map, Nat.mul_zero, Nat.add_zero] at hwords
    obtain ⟨hfake, hrest⟩ := List.cons.inj hwords
    refine ⟨hargc.symm, ?_, hfake, ⟨ps, hlen.symm, ?_, fun x hx => ?_, hl.apart⟩, ?_, hdvd⟩
    · change sp - (ps.length + 2) * 8 + 8 = sp - (ps.length + 1) * 8
      omega
    · rw [hargc, ← hrest]
      refine map_congr_left fun i _ => ?_
      change readLE _ (sp - (ps.length + 1) * 8 + 8 * i) 8 =
        readLE _ (sp - (ps.length + 2) * 8 + 8 * (i + 1)) 8
      rw [show sp - (ps.length + 1) * 8 + 8 * i = sp - (ps.length + 2) * 8 + 8 * (i + 1) by omega]
    · obtain ⟨hdvd', hle, htop, hbytes⟩ := hl.string x hx
      change x.2 + (x.1.length + 1) ≤ (V + 1) * 4096 + 4096 at htop
      refine ⟨hdvd', by omega, htop.trans_eq hsize.symm, fun j hj => ?_⟩
      · have hin := hbyte (x.2 - (V + 1) * 4096 + j) (by omega)
        rw [show (V + 1) * 4096 + (x.2 - (V + 1) * 4096 + j) = x.2 + j by omega] at hin
        rw [hin, hpage, splice_of_not_mem (Or.inr (by omega))]
        exact hbytes j hj
    · have hsz : PGSIZE = 4096 := rfl
      change size ≤ sp - (ps.length + 2) * 8 + PGSIZE
      omega
  · rcases mem_cons.1 hw with rfl | hw
    · decide
    · rcases mem_append.1 hw with hw | hw
      · obtain ⟨x, hx, rfl⟩ := mem_map.1 hw
        have htop : x.2 + (x.1.length + 1) ≤ (V + 1) * 4096 + 4096 := (hl.string x hx).2.2.1
        omega
      · rw [mem_singleton.1 hw]
        decide

section Exec

variable [DecidableEq κ] [DecidableEq σ] {img : Image}

theorem pageUp_mul (v : ℕ) : pageUp (v * PGSIZE) = v := by
  change (v * 4096 + 4095) / 4096 = v
  omega

theorem block_bounds (hlow : (V + 1) * PGSIZE ≤ sp) (hhigh : sp ≤ (V + 1) * PGSIZE + PGSIZE)
    (hn : (n + 2) * 8 ≤ sp) :
    sp - (n + 2) * 8 + 8 * (n + 2) ≤ (V + 2) * PGSIZE ∧
      V * PGSIZE < sp - (n + 2) * 8 + 8 * (n + 2) := by
  have hsz : PGSIZE = 4096 := rfl
  rw [hsz] at hlow hhigh ⊢
  omega

omit [DecidableEq κ] [DecidableEq σ] in
/-- The pushes onto a page that is ready for them. -/
theorem wp_pushAll (h : Ready m r V g) (hsize : sz = (V + 1) * PGSIZE + PGSIZE) :
    (pushAll r sz argv).wp anyPanic (fun out m' => ∀ img, out = some img →
      Built argv ⟨⟨img.rdi, img.rsi, 0, 0, 0, 0⟩, img.sz, m'.ram, r⟩ img.rsp) m := by
  have hlaid : Laid ((V + 1) * PGSIZE) (m.ram g) [] sz :=
    ⟨by rw [hsize]; exact Nat.le_add_right _ _, hsize.le, fun x hx => absurd hx not_mem_nil,
      List.Pairwise.nil⟩
  simp only [pushAll, bind_eq, wp_bind]
  refine wp_mono (wp_pushArgs argv [] sz h hlaid) fun out m₁ hout => ?_
  cases out with
  | none => exact fun img hc => absurd hc.symm (Option.some_ne_none img)
  | some c =>
    obtain ⟨qs, hfst, hsnd, hready, hlaid'⟩ := hout c rfl
    rw [nil_append] at hsnd hlaid'
    have hcount : c.2.length = qs.length := by rw [hsnd, length_map]
    have hblock : (words ((2 ^ 64 - 1) :: (c.2 ++ [0]))).length = 8 * (qs.length + 2) := by
      rw [length_words, length_cons, length_append, length_singleton, hcount]
    simp only [wp_bind]
    refine wp_subU fun h₁ => wp_subU fun h₂ => ?_
    rw [hcount] at h₁ h₂ ⊢
    obtain ⟨hend, hstart⟩ := block_bounds hlaid'.low hlaid'.high h₂
    refine wp_copyout_stack hready (by omega) (by rw [hblock]; exact hend)
      (by rw [hblock]; exact hstart)
      (fun ret m' hneg => ?_) fun o ho hfit => ?_
    · rw [if_pos hneg]
      exact fun img hc => absurd hc.symm (Option.some_ne_none img)
    · rw [if_neg (lt_irrefl _)]
      intro img hc
      obtain rfl := Option.some.inj hc
      refine built_of_laid hsize (hready.write hready.lt hready.node _) hlaid' hfst.symm (by omega)
        ho.symm ?_
      rw [ram_write_self, hblock, hsnd]

/-- The set-up, in terms of the sizes `low` and `top` below and above the two pages. -/
theorem wp_pushStack_of {low top : ℕ} (h : Owned m l T S) (hk : T k = some r)
    (hround : (PGROUNDUP sz : Prog Mem ℕ) = .ret low)
      (hadd : (add64 low (2 * PGSIZE) : Prog Mem ℕ) = .ret top)
    (hsub : (subU top (2 * PGSIZE) : Prog Mem ℕ) = .ret (V * PGSIZE)) (hlow : pageUp low = V)
      (hup : pageUp top = V + 2) (hgrow : low ≤ top) (hpos : top ≠ 0) (hbound : V + 2 ≤ UPAGES)
    (hbeyond : ∀ w, V ≤ w → w < UPAGES → view m.ram r w = none)
      (hE : Spare E (cost m.ram r (List.range' V 2)) l)
    {Q : Option Image → Mem → Prop} (hQ : ∀ m₁ g, Ready m₁ r V g → (pushAll r top argv).wp E Q m₁) :
    (pushStack r sz argv).wp E Q m := by
  rw [pushStack, hround, bind_eq, ret_bind, hadd, bind_eq, ret_bind, bind_eq, wp_bind]
  refine wp_allocuvm h hk hgrow (by rw [hup]; exact hbound) (fun w h1 h2 => ?_)
    (by rw [hlow, hup, Nat.add_sub_cancel_left]; exact hE) fun m₁ used fs l' _ _ hown ha => ?_
  · rw [hlow] at h1
    rw [hup] at h2
    exact hbeyond w h1 (lt_of_lt_of_le h2 hbound)
  rw [hlow, hup, Nat.add_sub_cancel_left] at ha
  obtain ⟨fg, -, hg, -⟩ := ha.mapped V (by simp [mem_range'_1])
  obtain ⟨g, -, hs, -⟩ := ha.mapped (V + 1) (by simp [mem_range'_1])
  rw [if_neg hpos]
  have hlt : V + 1 < UPAGES := Nat.lt_of_lt_of_le (Nat.lt_succ_self (V + 1)) hbound
  rw [hsub, bind_eq, ret_bind, bind_eq, wp_bind]
  exact wp_clearpteu hown hk hlt hg hs fun m₂ hready => hQ m₂ g hready

/-- What `exec` computes with for a program of `V` pages. -/
theorem two_pages (hV : V ≤ 57345) :
    (add64 (V * PGSIZE) (2 * PGSIZE) : Prog Mem ℕ) = .ret (V * PGSIZE + 2 * PGSIZE) ∧
    (subU (V * PGSIZE + 2 * PGSIZE) (2 * PGSIZE) : Prog Mem ℕ) = .ret (V * PGSIZE) ∧
    pageUp (V * PGSIZE + 2 * PGSIZE) = V + 2 ∧ V * PGSIZE + 2 * PGSIZE ≠ 0 ∧
    V * PGSIZE + 2 * PGSIZE = (V + 1) * PGSIZE + PGSIZE := by
  have hsz : PGSIZE = 4096 := rfl
  refine ⟨add64_of_lt ?_, ?_, ?_, ?_, ?_⟩
  · rw [hsz]
    omega
  · rw [subU_of_le (Nat.le_add_left _ _), Nat.add_sub_cancel]
  · rw [pageUp, hsz]
    omega
  · rw [hsz]
    omega
  · rw [hsz]
    omega

/-- The set-up, whatever of it panics. -/
theorem wp_pushStack (h : Owned m l T S) (hk : T k = some r) (hmaps : Exactly m.ram r sz) :
    (pushStack r sz argv).wp anyPanic (fun out m' => ∀ img, out = some img →
      Built argv ⟨⟨img.rdi, img.rsi, 0, 0, 0, 0⟩, img.sz, m'.ram, r⟩ img.rsp) m := by
  have hle := hmaps.pageUp_le h hk
  obtain ⟨hadd, hsub, hup, hpos, hsize⟩ := two_pages hle
  refine wp_pushStack_of h hk (PGROUNDUP_of_lt ((hmaps.sz_lt h hk).trans (by decide))) hadd hsub
    (pageUp_mul _) hup
    (Nat.le_add_right _ _) hpos ?_ (fun w hw hlt => hmaps.beyond hw hlt) (Or.inl trivial)
    fun m₁ g hready => wp_pushAll hready hsize
  change pageUp sz + 2 ≤ 2 ^ 35
  omega

/-- **`exec` builds a correct initial stack.**  For every program loaded into a table that maps
exactly the pages of its size and every `argv`, if the set-up comes to its end the program finds
its arguments: the count, the vector with its null pointer, an aligned copy of each string, the
return address below the vector, all of it in the one page below the new size. -/
theorem exec_builds_stack (h : Owned m l T S) (hk : T k = some r) (hmaps : Exactly m.ram r sz)
    (hrun : (execStack r sz argv).run m = .done (some img) m') :
    Built argv ⟨⟨img.rdi, img.rsi, 0, 0, 0, 0⟩, img.sz, m'.ram, r⟩ img.rsp := by
  rw [execStack, bind_eq, run_bind] at hrun
  cases hpush : (pushStack r sz argv).run m with
  | panicked msg s =>
    rw [hpush] at hrun
    cases hrun
  | stuck s =>
    rw [hpush] at hrun
    cases hrun
  | done out m₁ =>
    rw [hpush] at hrun
    cases out with
    | some img' =>
      cases hrun
      exact of_wp_of_run (wp_pushStack h hk hmaps) hpush img rfl
    | none =>
      -- `goto_bad` returns no image
      simp only [bind_eq, run_bind] at hrun
      cases hfree : (freevm (some r)).run m₁ with
      | done a s =>
        rw [hfree] at hrun
        cases hrun
      | panicked msg s =>
        rw [hfree] at hrun
        cases hrun
      | stuck s =>
        rw [hfree] at hrun
        cases hrun

omit [DecidableEq κ] [DecidableEq σ] in
/-- Each page takes at most itself and three tables. -/
theorem cost_le (ram : ℕ → Page) (r : ℕ) (vs : List ℕ) : cost ram r vs ≤ 4 * vs.length := by
  have hlen : (vs.flatMap prefixes).length = 3 * vs.length := by
    induction vs with
    | nil => rfl
    | cons v vs ih =>
      rw [flatMap_cons, length_append, ih, length_cons]
      change 3 + 3 * vs.length = 3 * (vs.length + 1)
      omega
  have hcard : (missing ram r vs).card ≤ (vs.flatMap prefixes).length :=
    (Finset.card_filter_le _ _).trans (toFinset_card_le _)
  rw [cost]
  omega

omit [DecidableEq κ] [DecidableEq σ] in
/-- A short argument takes one word below the stack pointer. -/
theorem wp_pushArgs_short {us : List ℕ} {sp o : ℕ} {rest : List (List UInt8)}
    {Q : Option (ℕ × List ℕ) → Mem → Prop} (h : Ready m r V g) (harg : arg.length < 8)
    (hus : us.length < MAXARG) (hsp : sp = (V + 1) * PGSIZE + o + 8) (ho : o % 8 = 0)
    (htop : o + 8 ≤ PGSIZE) (hQ : ∀ m', Ready m' r V g → (pushArgs r rest ((V + 1) * PGSIZE + o)
      (us ++ [(V + 1) * PGSIZE + o])).wp noPanic Q m') :
    (pushArgs r (arg :: rest) sp us).wp noPanic Q m := by
  have hsz : PGSIZE = 4096 := rfl
  have hlen : (arg ++ [0]).length = arg.length + 1 := length_append
  have hword : (sp - (arg.length + 1)) / 8 * 8 = (V + 1) * PGSIZE + o := by
    rw [hsp, hsz]
    omega
  have hle : arg.length + 1 ≤ sp := by omega
  rw [pushArgs, if_neg hus.not_ge, bind_eq, wp_bind, subU_of_le hle, wp_ret,
    hword, bind_eq, wp_bind]
  refine wp_copyout_inside h (by omega) (by rw [hlen]; omega) ?_
  rw [if_neg (lt_irrefl _)]
  exact hQ _ (h.write h.lt h.node _)

omit [DecidableEq κ] [DecidableEq σ] in
/-- Two short arguments take a word each, and the block the four words below them. -/
theorem wp_pushAll_short {arg' : List UInt8} (h : Ready m r V g)
    (hsize : sz = (V + 1) * PGSIZE + PGSIZE) (harg : arg.length < 8) (harg' : arg'.length < 8) :
    (pushAll r sz [arg, arg']).wp noPanic (fun out _ => ∃ img, out = some img) m := by
  rw [pushAll, bind_eq, wp_bind]
  refine wp_pushArgs_short (o := 4088) h harg (by decide) (by rw [hsize, Nat.add_assoc])
    rfl le_rfl fun m₁ h₁ => ?_
  refine wp_pushArgs_short (o := 4080) h₁ harg' (by change 1 < 32; decide) rfl rfl (by decide)
    fun m₂ h₂ => ?_
  rw [pushArgs, Prog.pure_eq, wp_ret]
  simp only [nil_append, singleton_append, length_cons, length_nil, bind_eq, wp_bind]
  have hblock : (V + 1) * PGSIZE + 4080 - (0 + 1 + 1 + 2) * 8 = (V + 1) * PGSIZE + 4048 := by
    omega
  rw [subU_of_le (by omega), wp_ret, subU_of_le (by omega), wp_ret, hblock]
  have hwords : (words ((2 ^ 64 - 1) ::
      ([(V + 1) * PGSIZE + 4088, (V + 1) * PGSIZE + 4080] ++ [0]))).length = 8 * 4 := length_words _
  exact wp_copyout_inside h₂ (by omega) (by rw [hwords]; decide) ⟨_, rfl⟩

/-- The first process runs a program of one page as `rm ls`. -/
theorem exec_builds_stack_first :
    ∃ r m img m', (firstSpace 1024).run (bootMem 1024) = .done (some r) m ∧
    (execStack r (2 * PGSIZE) [[114, 109], [108, 115]]).run m = .done (some img) m' ∧
    Built [[114, 109], [108, 115]] ⟨⟨img.rdi, img.rsi, 0, 0, 0, 0⟩, img.sz, m'.ram, r⟩ img.rsp := by
  obtain ⟨r, m, l, hrun, hown, hmaps, hlen, -⟩ := firstSpace_exactly
  have htwo : pageUp (2 * PGSIZE) = 2 := by decide
  obtain ⟨hadd, hsub, hup, hpos, hsize⟩ := two_pages (V := 2) (by decide)
  have hround : (PGROUNDUP (2 * PGSIZE) : Prog Mem ℕ) = .ret (2 * PGSIZE) := by
    rw [PGROUNDUP_of_lt (by decide), htwo]
  have hcost := cost_le m.ram r (List.range' 2 2)
  rw [length_range'] at hcost
  have hpush : (pushStack r (2 * PGSIZE) [[114, 109], [108, 115]]).wp noPanic (fun out _ => ∃ img,
    out = some img) m :=
    wp_pushStack_of hown (alone_true r) hround hadd hsub htwo hup (Nat.le_add_right _ _) hpos
      (by decide) (fun w hw hlt => hmaps.beyond (by rw [htwo]; exact hw) hlt) (Or.inr (by omega))
      fun m₁ g hready => wp_pushAll_short hready hsize (by decide) (by decide)
  obtain ⟨_, m', hdone, img, rfl⟩ := (wp_noPanic_iff _).1 hpush
  have hexec : (execStack r (2 * PGSIZE) [[114, 109], [108, 115]]).run m = .done (some img) m' := by
    rw [execStack, bind_eq, run_bind_of_done hdone]
    rfl
  exact ⟨r, m, img, m', hrun, hexec, exec_builds_stack hown (alone_true r) hmaps hexec⟩

end Exec

end Xv6.Sys
