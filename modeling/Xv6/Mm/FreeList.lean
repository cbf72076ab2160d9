import Xv6.Lib.Machine
import Xv6.Mm.Kalloc

/-!
# The free list from boot on

`kinit1`, `freerange` and `kfree` of `crates/mm/src/kalloc.rs` on addresses, as `main` calls them,
and then any calls of `kalloc` and `kfree` and any writes to pages that are in use.

* `wp_freerangeLoop` — the loop pushes the whole pages of a range, lowest first.
* `wp_boot` — after boot the list holds the whole pages of both ranges.
* `wp_freerangeAt_iff` — on frames, this is `freerange` of `Kalloc`.
* `page_allocator` — from then on every page is on the list or allocated, and never both.
-/

namespace Xv6.Mm

open Lib Prog List

/-- `P2V`. -/
def P2V (a : ℕ) : ℕ := (a + KERNBASE) % 2 ^ 64

/-- `V2P`. -/
def V2P (v : ℕ) : ℕ := (v + 2 ^ 64 - KERNBASE) % 2 ^ 64

/-- `4 * 1024 * 1024`. -/
abbrev FOURMIB : ℕ := 4 * 1024 * 1024

/-- `KERNLINK`. -/
abbrev KERNLINK : ℕ := KERNBASE + 0x100000

/-- The kernel image, linked from `KERNLINK` up to the symbol `end`, anywhere in the page. -/
structure KernelImage where
  stop : ℕ
  above : KERNLINK ≤ stop

/-- `kfree`, with its checks of the address. -/
def kfreeAt (image : KernelImage) (v : ℕ) : Prog Mem Unit := do
  .panicIf (fun _ => decide (v % PGSIZE ≠ 0) || decide (v < image.stop) || decide (PHYSTOP ≤ V2P v))
    "kfree"
  .change fun m => m.pushed (V2P v / PGSIZE)

/-- The loop of `freerange`, with a bound on its turns. -/
def freerangeLoop (image : KernelImage) (vend : ℕ) : ℕ → ℕ → Prog Mem Unit
  | 0, _ => pure ()
  | n + 1, p =>
    if p + PGSIZE ≤ vend then do
      kfreeAt image p
      freerangeLoop image vend n (p + PGSIZE)
    else pure ()

/-- `freerange`. -/
def freerangeAt (image : KernelImage) (vstart vend : ℕ) : Prog Mem Unit := do
  let p ← PGROUNDUP vstart
  freerangeLoop image vend (vend / PGSIZE + 1) p

/-- `kinit1`. -/
def kinit1 (image : KernelImage) (vstart vend : ℕ) : Prog Mem Unit := do
  .change fun m => { m with freelist := 0 }
  freerangeAt image vstart vend

/-- The two calls of `main`. -/
def boot (image : KernelImage) : Prog Mem Unit := do
  kinit1 image image.stop (P2V FOURMIB)
  freerangeAt image (P2V FOURMIB) (P2V PHYSTOP)

/-! ## Addresses of frames -/

variable {image : KernelImage} {m : Mem} {l : List ℕ} {a e f n : ℕ} {E : String → Prop}

theorem P2V_of_lt (h : a < 2 ^ 47) : P2V a = a + KERNBASE := by
  unfold P2V
  refine Nat.mod_eq_of_lt ?_
  change a + 0xFFFF800000000000 < 2 ^ 64
  omega

theorem V2P_P2V (h : a < 2 ^ 47) : V2P (P2V a) = a := by
  rw [P2V_of_lt h]
  unfold V2P
  change (a + 0xFFFF800000000000 + 2 ^ 64 - 0xFFFF800000000000) % 2 ^ 64 = a
  omega

-- unfolding these compares numbers above `2^63` in unary
attribute [irreducible] P2V V2P

/-- `kfree` of the address of a frame. -/
theorem kfreeAt_frame (ha : f * PGSIZE < 2 ^ 47) : kfreeAt image (P2V (f * PGSIZE)) =
    (Prog.panicIf (fun _ => decide (P2V (f * PGSIZE) < image.stop) ||
      decide (PHYSTOP / PGSIZE ≤ f)) "kfree").bind fun _ => .change fun m => m.pushed f := by
  have halign : P2V (f * PGSIZE) % PGSIZE = 0 := by
    rw [P2V_of_lt ha]
    change (f * 4096 + 0xFFFF800000000000) % 4096 = 0
    omega
  have htop : PHYSTOP ≤ f * PGSIZE ↔ PHYSTOP / PGSIZE ≤ f := by
    change 0xE000000 ≤ f * 4096 ↔ 57344 ≤ f
    omega
  rw [kfreeAt, V2P_P2V ha, halign, Nat.mul_div_cancel f (by decide)]
  simp only [ne_eq, not_true_eq_false, decide_false, Bool.false_or, htop, bind_eq]

/-- `kfree` of a page past the kernel image. -/
theorem wp_kfreeAt {Q : Unit → Mem → Prop} (hf : f < PHYSTOP / PGSIZE)
    (hstop : image.stop ≤ P2V (f * PGSIZE))
    (hQ : Q () (m.pushed f)) : (kfreeAt image (P2V (f * PGSIZE))).wp E Q m := by
  have ha : f * 4096 < 2 ^ 47 := by
    change f < 57344 at hf
    omega
  rw [kfreeAt_frame ha, wp_bind, wp_panicIf, wp_change]
  simp [hstop.not_gt, hf.not_ge, hQ]

/-! ## Frames -/

/-- The first frame past the image. -/
def KernelImage.firstFrame (image : KernelImage) : ℕ := pageUp (image.stop - KERNBASE)

theorem KernelImage.lt_firstFrame (ha : f * PGSIZE < 2 ^ 47) :
    f < image.firstFrame ↔ P2V (f * PGSIZE) < image.stop := by
  have := image.above
  rw [P2V_of_lt ha]
  change 0xFFFF800000000000 + 0x100000 ≤ image.stop at this
  change f < (image.stop - 0xFFFF800000000000 + 4095) / 4096 ↔
    f * 4096 + 0xFFFF800000000000 < image.stop
  omega

/-- `kfree` of the address of a frame is `kfree` of the frame. -/
theorem wp_kfreeAt_iff {Q : Unit → Mem → Prop} (hend : m.kernelEnd = image.firstFrame)
    (ha : f * PGSIZE < 2 ^ 47) :
    (kfreeAt image (P2V (f * PGSIZE))).wp E Q m ↔ (kfree f).wp E Q m := by
  rw [kfreeAt_frame ha, kfree]
  simp only [bind_eq, wp_bind, wp_panicIf, hend, KernelImage.lt_firstFrame ha]

/-! ## The loop of freerange -/

theorem P2V_next (ha : a < 2 ^ 34) : P2V (a * PGSIZE) + PGSIZE = P2V ((a + 1) * PGSIZE) := by
  rw [P2V_of_lt (by change a * 4096 < _; omega), P2V_of_lt (by change (a + 1) * 4096 < _; omega)]
  change a * 4096 + KERNBASE + 4096 = (a + 1) * 4096 + KERNBASE
  omega

theorem freerangeLoop_more (he : e ≤ PHYSTOP) (ha : a < 2 ^ 34) :
    P2V (a * PGSIZE) + PGSIZE ≤ P2V e ↔ a < e / PGSIZE := by
  change e ≤ 0xE000000 at he
  rw [P2V_of_lt (by change a * 4096 < _; omega), P2V_of_lt (by omega)]
  change a * 4096 + KERNBASE + 4096 ≤ e + KERNBASE ↔ a < e / 4096
  omega

theorem range'_of_lt (h : a < n) :
    List.range' a (n - a) = a :: List.range' (a + 1) (n - (a + 1)) := by
  rw [show n - a = n - (a + 1) + 1 by omega, range'_succ]

theorem wp_freerangeLoop_iff {Q : Unit → Mem → Prop} (hend : m.kernelEnd = image.firstFrame)
    (he : e ≤ PHYSTOP) (hn : e / PGSIZE ≤ a + n) (ha : a < 2 ^ 34) :
    (freerangeLoop image (P2V e) n (P2V (a * PGSIZE))).wp E Q m ↔
      (Prog.forEach (List.range' a (e / PGSIZE - a)) kfree).wp E Q m := by
  induction n generalizing a m with
  | zero =>
    rw [show e / PGSIZE - a = 0 by omega]
    rfl
  | succ n ih =>
    rw [freerangeLoop]
    rcases lt_or_ge a (e / PGSIZE) with hlt | hge
    · have hnext : a + 1 < 2 ^ 34 := by
        have hdiv : e / PGSIZE ≤ PHYSTOP / PGSIZE := Nat.div_le_div_right he
        change e / PGSIZE ≤ 57344 at hdiv
        omega
      rw [if_pos ((freerangeLoop_more he ha).2 hlt), range'_of_lt hlt, Prog.forEach, bind_eq,
        wp_bind, wp_bind, wp_kfreeAt_iff hend (by change a * 4096 < _; omega), P2V_next ha, kfree]
      simp only [bind_eq, wp_bind, wp_panicIf, wp_change]
      -- a page pushed leaves `kernelEnd` as it was
      exact and_congr_right fun _ => imp_congr_right fun _ => ih hend (by omega) hnext
    · rw [if_neg fun hin => absurd ((freerangeLoop_more he ha).1 hin) hge.not_gt,
        show e / PGSIZE - a = 0 by omega]
      rfl

/-- The pages from `a` up to the end of the range go on the list, the last one first. -/
theorem wp_freerangeLoop (he : e ≤ PHYSTOP) (hn : e / PGSIZE ≤ a + n) (hpos : 0 < a)
    (ha : a < 2 ^ 34)
    (hstop : image.stop ≤ P2V (a * PGSIZE)) (hc : Chain m.ram m.freelist l) (hl : ∀ f ∈ l, f < a) :
    (freerangeLoop image (P2V e) n (P2V (a * PGSIZE))).wp E
      (fun _ m' => Chain m'.ram m'.freelist ((List.range' a (e / PGSIZE - a)).reverse ++ l)) m := by
  induction n generalizing a m l with
  | zero =>
    have hnone : e / PGSIZE - a = 0 := by omega
    rw [hnone]
    exact hc
  | succ n ih =>
    have hnext := P2V_next ha
    have hmore := freerangeLoop_more he ha
    rw [freerangeLoop]
    rcases lt_or_ge a (e / PGSIZE) with hlt | hge
    · have htop : a < PHYSTOP / PGSIZE := hlt.trans_le (Nat.div_le_div_right he)
      rw [if_pos (hmore.2 hlt), bind_eq, wp_bind]
      refine wp_kfreeAt htop hstop ?_
      rw [hnext, range'_of_lt hlt, reverse_cons, append_assoc, singleton_append]
      refine ih (by omega) (Nat.succ_pos a) (by change a < 57344 at htop; omega) ?_ ?_ ?_
      · rw [← hnext]
        exact hstop.trans (Nat.le_add_right _ _)
      · refine hc.pushed (fun f hf => (hl f hf).trans htop) (fun hmem => ?_) hpos.ne'
        exact absurd (hl a hmem) (lt_irrefl a)
      · intro f hf
        rcases mem_cons.1 hf with rfl | hf
        · exact Nat.lt_succ_self _
        · exact (hl f hf).trans (Nat.lt_succ_self a)
    · have hnone : e / PGSIZE - a = 0 := by omega
      rw [if_neg fun hin => absurd (hmore.1 hin) hge.not_gt, hnone]
      exact hc

/-! ## Boot -/

theorem PGROUNDUP_P2V {s : ℕ} (h : s < 2 ^ 46) :
    (PGROUNDUP (P2V s) : Prog Mem ℕ) = .ret (P2V (pageUp s * PGSIZE)) := by
  have hup : pageUp s * PGSIZE < 2 ^ 47 := by
    change (s + 4095) / 4096 * 4096 < 2 ^ 47
    omega
  have hsum : P2V s + (PGSIZE - 1) < 2 ^ 64 := by
    rw [P2V_of_lt (by omega)]
    change s + 0xFFFF800000000000 + 4095 < 2 ^ 64
    omega
  have hround : (P2V s + (PGSIZE - 1)) / PGSIZE * PGSIZE = P2V (pageUp s * PGSIZE) := by
    rw [P2V_of_lt hup, P2V_of_lt (by omega)]
    change (s + 0xFFFF800000000000 + 4095) / 4096 * 4096 =
      (s + 4095) / 4096 * 4096 + 0xFFFF800000000000
    omega
  rw [PGROUNDUP, add64_of_lt hsum, bind_eq, ret_bind, hround]
  rfl

theorem div_le_div_P2V (he : e ≤ PHYSTOP) : e / PGSIZE ≤ P2V e / PGSIZE := by
  refine Nat.div_le_div_right ?_
  change e ≤ 0xE000000 at he
  rw [P2V_of_lt (by omega)]
  exact Nat.le_add_right _ _

/-- `freerange` of addresses in the direct map is `freerange` of the whole frames between them. -/
theorem wp_freerangeAt_iff {Q : Unit → Mem → Prop} {s : ℕ}
    (hend : m.kernelEnd = image.firstFrame) (he : e ≤ PHYSTOP) (hs : s ≤ PHYSTOP) :
    (freerangeAt image (P2V s) (P2V e)).wp E Q m ↔
      (freerange (pageUp s) (e / PGSIZE)).wp E Q m := by
  change s ≤ 0xE000000 at hs
  have hup : pageUp s < 2 ^ 34 := by
    change (s + 4095) / 4096 < 2 ^ 34
    omega
  rw [freerangeAt, bind_eq, PGROUNDUP_P2V (by omega), ret_bind,
    wp_freerangeLoop_iff hend he ?_ hup, freerange, range'_eq_map_range]
  have := div_le_div_P2V he
  omega

/-- `freerange` of addresses in the direct map, with `s` and `e` the physical ones. -/
theorem wp_freerangeAt {s : ℕ} (he : e ≤ PHYSTOP) (hpos : 0 < s) (hs : s ≤ PHYSTOP)
    (hstop : image.stop ≤ P2V s)
    (hc : Chain m.ram m.freelist l) (hnd : l.Nodup) (hl : ∀ f ∈ l, f < pageUp s) :
    (freerangeAt image (P2V s) (P2V e)).wp E (fun _ m' => ∃ l', Chain m'.ram m'.freelist l' ∧
      l'.Nodup ∧
      ∀ f, f ∈ l' ↔ f ∈ l ∨ pageUp s ≤ f ∧ f < e / PGSIZE) m := by
  change s ≤ 0xE000000 at hs
  have hbound : 0 < pageUp s ∧ pageUp s < 2 ^ 34 ∧ s ≤ pageUp s * 4096 := by
    change 0 < (s + 4095) / 4096 ∧ (s + 4095) / 4096 < 2 ^ 34 ∧ s ≤ (s + 4095) / 4096 * 4096
    omega
  have hup : P2V s ≤ P2V (pageUp s * PGSIZE) := by
    rw [P2V_of_lt (by omega), P2V_of_lt (by change pageUp s * 4096 < 2 ^ 47; omega)]
    exact Nat.add_le_add_right hbound.2.2 _
  rw [freerangeAt, bind_eq, PGROUNDUP_P2V (by omega), ret_bind]
  have hmem : ∀ f, f ∈ (List.range' (pageUp s) (e / PGSIZE - pageUp s)).reverse ↔ pageUp s ≤ f ∧
    f < e / PGSIZE := by
    intro f
    rw [mem_reverse, mem_range'_1]
    omega
  refine wp_mono (wp_freerangeLoop he ?_ hbound.1 hbound.2.1 (hstop.trans hup) hc hl)
    fun _ m' hc' =>
    ⟨_, hc', ?_, fun f => ?_⟩
  rotate_left
  · refine List.Nodup.append (nodup_reverse.2 nodup_range') hnd fun f hf hin => ?_
    exact absurd (hl f hin) ((hmem f).1 hf).1.not_gt
  · rw [mem_append, hmem, or_comm]
  have := div_le_div_P2V he
  omega

/-- A page of the ranges that `main` gives to the allocator. -/
def WholePage (image : KernelImage) (f : ℕ) : Prop :=
  (image.stop ≤ P2V (f * PGSIZE) ∧ (f + 1) * PGSIZE ≤ FOURMIB) ∨
    (FOURMIB ≤ f * PGSIZE ∧ (f + 1) * PGSIZE ≤ PHYSTOP)

/-- The loop ends, with or without a panic. -/
theorem wp_freerangeLoop_ends {p vend : ℕ} :
    (freerangeLoop image vend n p).wp anyPanic (fun _ _ => True) m := by
  induction n generalizing m p with
  | zero => trivial
  | succ n ih =>
    rw [freerangeLoop]
    split_ifs
    · simp only [kfreeAt, bind_eq, wp_bind, wp_panicIf, wp_change]
      exact ⟨fun _ => trivial, fun _ => ih⟩
    · trivial

theorem wp_PGROUNDUP_ends (v : ℕ) :
    (PGROUNDUP v : Prog Mem ℕ).wp anyPanic (fun _ _ => True) m := by
  rw [PGROUNDUP]
  rcases lt_or_ge (v + (PGSIZE - 1)) (2 ^ 64) with hlt | hge
  · rw [add64_of_lt hlt]
    trivial
  · rw [add64, if_neg hge.not_gt]
    trivial

/-- If the kernel ends above four megabytes, the first page of the second range is refused. -/
theorem wp_boot_panics (h : P2V FOURMIB < image.stop) :
    (boot image).wp anyPanic (fun _ _ => False) m := by
  have hfirst : pageUp FOURMIB * PGSIZE = FOURMIB := by decide
  have hmore : P2V FOURMIB + PGSIZE ≤ P2V PHYSTOP := by
    rw [P2V_of_lt (by decide), P2V_of_lt (by decide)]
    decide
  have hsecond : ∀ m : Mem, (freerangeAt image (P2V FOURMIB) (P2V PHYSTOP)).wp anyPanic
    (fun _ _ => False) m := by
    intro m
    rw [freerangeAt, bind_eq, PGROUNDUP_P2V (by decide), ret_bind, hfirst, freerangeLoop,
      if_pos hmore, bind_eq, wp_bind, kfreeAt, bind_eq, wp_bind, wp_panicIf]
    refine ⟨fun _ => trivial, fun hno => ?_⟩
    simp [h] at hno
  rw [boot, bind_eq, wp_bind, kinit1, bind_eq, wp_bind, wp_change, freerangeAt, bind_eq, wp_bind]
  refine wp_mono (wp_PGROUNDUP_ends _) fun p m' _ => ?_
  exact wp_mono wp_freerangeLoop_ends fun _ m'' _ => hsecond m''

/-- After boot the list holds the whole pages of both ranges, each once. -/
theorem wp_boot (h : image.stop ≤ P2V FOURMIB) : (boot image).wp noPanic
    (fun _ m' => ∃ l, Chain m'.ram m'.freelist l ∧ l.Nodup ∧ ∀ f, f ∈ l ↔ WholePage image f) m := by
  obtain ⟨s, hs⟩ : ∃ s, image.stop = s + KERNBASE := ⟨image.stop - KERNBASE, by
    have := image.above
    change 0xFFFF800000000000 + 0x100000 ≤ image.stop at this
    change image.stop = image.stop - 0xFFFF800000000000 + 0xFFFF800000000000
    omega⟩
  have hpos : 0x100000 ≤ s := by
    have := image.above
    rw [hs] at this
    change 0xFFFF800000000000 + 0x100000 ≤ s + 0xFFFF800000000000 at this
    omega
  have hle : s ≤ 4194304 := by
    rw [hs, P2V_of_lt (by decide)] at h
    exact Nat.le_of_add_le_add_right h
  have hstop : image.stop = P2V s := by rw [hs, P2V_of_lt (by omega)]
  have hup : pageUp s ≤ 1024 ∧ 0 < pageUp s := by
    change (s + 4095) / 4096 ≤ 1024 ∧ 0 < (s + 4095) / 4096
    omega
  have hfour : pageUp FOURMIB = 1024 := by decide
  rw [boot, bind_eq, wp_bind, kinit1, bind_eq, wp_bind, wp_change, hstop]
  have htop : s ≤ PHYSTOP := by
    change s ≤ 0xE000000
    omega
  have hnil : Chain m.ram 0 [] := rfl
  refine wp_mono (wp_freerangeAt (by decide) (by omega) htop hstop.le hnil nodup_nil
    fun f hf => absurd hf not_mem_nil) fun _ m₁ hlow => ?_
  obtain ⟨l₁, hc₁, hnd₁, hl₁⟩ := hlow
  have hbelow : ∀ f ∈ l₁, f < pageUp FOURMIB := by
    intro f hf
    rw [hfour]
    exact ((hl₁ f).1 hf).elim (fun hin => absurd hin not_mem_nil) fun hin => hin.2
  refine wp_mono (wp_freerangeAt le_rfl (by decide) (by decide) h hc₁ hnd₁ hbelow)
    fun _ m₂ hall => ?_
  obtain ⟨l₂, hc₂, hnd₂, hl₂⟩ := hall
  refine ⟨l₂, hc₂, hnd₂, fun f => ?_⟩
  rw [hl₂, hl₁, hfour, WholePage]
  simp only [not_mem_nil, false_or]
  refine or_congr ?_ ?_
  · change (s + 4095) / 4096 ≤ f ∧ f < 1024 ↔ image.stop ≤ P2V (f * 4096) ∧ (f + 1) * 4096 ≤ 4194304
    constructor
    · rintro ⟨hlow, hf⟩
      rw [hs, P2V_of_lt (by omega), Nat.add_le_add_iff_right]
      omega
    · rintro ⟨hlow, hf⟩
      rw [hs, P2V_of_lt (by omega), Nat.add_le_add_iff_right] at hlow
      omega
  · change 1024 ≤ f ∧ f < 57344 ↔ 4194304 ≤ f * 4096 ∧ (f + 1) * 4096 ≤ 0xE000000
    omega

/-! ## Allocating and freeing -/

/-- Memory, and the frames that are in use. -/
structure Pages where
  mem : Mem
  allocated : List ℕ

/-- What the kernel does with pages. -/
inductive PageAct where
  | kalloc
  | kfree (f : ℕ)
  /-- Whoever has a page writes to it. -/
  | write (f : ℕ) (page : Page)

/-- The page that `kalloc` returned is now in use. -/
def Pages.afterKalloc (s : Pages) : Prog.Outcome Mem (Option ℕ) → Option Pages
  | .done (some f) m => some ⟨m, f :: s.allocated⟩
  | _ => none

/-- The page that `kfree` was called with is no longer in use. -/
def Pages.afterKfree (s : Pages) (f : ℕ) : Prog.Outcome Mem Unit → Option Pages
  | .done _ m => some ⟨m, s.allocated.erase f⟩
  | _ => none

/-- One call or write, unless it panics. -/
def pageStep (image : KernelImage) (s : Pages) : PageAct → Option Pages
  | .kalloc => s.afterKalloc (kalloc.run s.mem)
  | .kfree f => s.afterKfree f ((kfreeAt image (P2V (f * PGSIZE))).run s.mem)
  | .write f page => some ⟨s.mem.write f page, s.allocated⟩

theorem Pages.afterKalloc_eq_some {s s' : Pages} {o : Prog.Outcome Mem (Option ℕ)}
    (h : s.afterKalloc o = some s') :
    ∃ f m, o = .done (some f) m ∧ s' = ⟨m, f :: s.allocated⟩ := by
  unfold Pages.afterKalloc at h
  split at h
  · rename_i f m
    exact ⟨f, m, rfl, (Option.some.inj h).symm⟩
  · simp at h

/-- Only pages that are in use are freed and written. -/
def InUse (s : Pages) : PageAct → Prop
  | .kalloc => True
  | .kfree f => f ∈ s.allocated
  | .write f _ => f ∈ s.allocated

/-- The list in memory and the frames in use make up the whole pages, each once. -/
structure Partition (image : KernelImage) (s : Pages) (l : List ℕ) : Prop where
  low : image.stop ≤ P2V FOURMIB
  chain : Chain s.mem.ram s.mem.freelist l
  nodup : (l ++ s.allocated).Nodup
  all : ∀ f, f ∈ l ++ s.allocated ↔ WholePage image f

variable {s s' : Pages}

theorem WholePage.bounds (hle : image.stop ≤ P2V FOURMIB) (h : WholePage image f) :
    0 < f ∧ f < PHYSTOP / PGSIZE ∧ image.stop ≤ P2V (f * PGSIZE) := by
  have hkern := image.above
  change 0xFFFF800000000000 + 0x100000 ≤ image.stop at hkern
  rcases h with ⟨hstop, hend⟩ | ⟨hlow, hend⟩
  · change (f + 1) * 4096 ≤ 4194304 at hend
    have haddr : P2V (f * PGSIZE) = f * 4096 + KERNBASE :=
      P2V_of_lt (by change f * 4096 < 2 ^ 47; omega)
    refine ⟨?_, ?_, hstop⟩
    · rw [haddr] at hstop
      change image.stop ≤ f * 4096 + 0xFFFF800000000000 at hstop
      omega
    · change f < 57344
      omega
  · change (f + 1) * 4096 ≤ 0xE000000 at hend
    change 4194304 ≤ f * 4096 at hlow
    refine ⟨by omega, ?_, hle.trans ?_⟩
    · change f < 57344
      omega
    · rw [P2V_of_lt (by decide), P2V_of_lt (by change f * 4096 < 2 ^ 47; omega)]
      exact Nat.add_le_add_right hlow _

/-- `kalloc` returns the head of the list. -/
theorem Partition.kalloc (h : Partition image s l) {f : ℕ} {m' : Mem}
    (hrun : kalloc.run s.mem = .done (some f) m') :
    ∃ l', l = f :: l' ∧ Partition image ⟨m', f :: s.allocated⟩ l' := by
  have hwp : Mm.kalloc.wp anyPanic (fun r m' => ∃ f l', r = some f ∧ l = f :: l' ∧
    m' = s.mem.popped) s.mem :=
    wp_kalloc h.chain (Or.inl trivial) fun f l' hl => ⟨f, l', rfl, hl, rfl⟩
  obtain ⟨g, l', hg, rfl, rfl⟩ := of_wp_of_run hwp hrun
  obtain rfl := Option.some.inj hg
  have hperm : (f :: l' ++ s.allocated).Perm (l' ++ f :: s.allocated) := perm_middle.symm
  refine ⟨l', rfl, h.low, h.chain.popped, hperm.nodup_iff.1 h.nodup, fun g => ?_⟩
  rw [← h.all g]
  exact hperm.mem_iff.symm

/-- `kfree` of a page in use pushes it. -/
theorem Partition.kfree (h : Partition image s l) (hf : f ∈ s.allocated) :
    (kfreeAt image (P2V (f * PGSIZE))).run s.mem = .done () (s.mem.pushed f) ∧
      Partition image ⟨s.mem.pushed f, s.allocated.erase f⟩ (f :: l) := by
  obtain ⟨hpos, hlt, hstop⟩ := ((h.all f).1 (mem_append_right l hf)).bounds h.low
  have hwp : (kfreeAt image (P2V (f * PGSIZE))).wp noPanic
    (fun _ m' => m' = s.mem.pushed f) s.mem :=
    wp_kfreeAt hlt hstop rfl
  obtain ⟨⟨⟩, m', hrun, rfl⟩ := (wp_noPanic_iff _).1 hwp
  have hperm : (l ++ s.allocated).Perm (f :: l ++ s.allocated.erase f) :=
    ((perm_cons_erase hf).append_left l).trans perm_middle
  refine ⟨hrun, h.low, ?_, hperm.nodup_iff.1 h.nodup, fun g => ?_⟩
  · refine h.chain.pushed (fun g hg => ?_) (fun hin => ?_) hpos.ne'
    · exact ((h.all g).1 (mem_append_left _ hg)).bounds h.low |>.2.1
    · exact (disjoint_of_nodup_append h.nodup) hin hf
  · rw [← h.all g]
    exact hperm.mem_iff.symm

/-- A write to a page in use leaves the list alone. -/
theorem Partition.write (h : Partition image s l) (hf : f ∈ s.allocated) (page : Page) :
    Partition image ⟨s.mem.write f page, s.allocated⟩ l := by
  have hram : ∀ g ∈ l, (s.mem.write f page).ram g = s.mem.ram g := by
    intro g hg
    have hne : g ≠ f := by
      rintro rfl
      exact (disjoint_of_nodup_append h.nodup) hg hf
    exact Function.update_of_ne hne _ _
  have hchain : Chain (s.mem.write f page).ram s.mem.freelist l := h.chain.congr hram
  exact ⟨h.low, hchain, h.nodup, h.all⟩

theorem Partition.step (h : Partition image s l) {a : PageAct} (hok : InUse s a)
    (hs : pageStep image s a = some s') :
    ∃ l', Partition image s' l' := by
  cases a with
  | kalloc =>
    obtain ⟨f, m', hrun, rfl⟩ := Pages.afterKalloc_eq_some hs
    obtain ⟨l', -, hl'⟩ := h.kalloc hrun
    exact ⟨l', hl'⟩
  | kfree f =>
    obtain ⟨hrun, hnext⟩ := h.kfree hok
    rw [pageStep, hrun] at hs
    obtain rfl := Option.some.inj hs
    exact ⟨f :: l, hnext⟩
  | write f page =>
    obtain rfl := Option.some.inj hs
    exact ⟨l, h.write hok page⟩

/-- **The page allocator.**  If the kernel image ends above four megabytes boot panics.  Else it
ends with the whole pages of both ranges on the list, each once; and in every state reached from
there by `kalloc`, by `kfree` of pages in use and by writes to them, the list in memory ends, it
and the pages in use make up that set without repetitions, `kfree` of a page in use does not
panic, and what `kalloc` returns is not in use. -/
theorem page_allocator (image : KernelImage) (m₀ : Mem) :
    (P2V FOURMIB < image.stop ∧ ∃ msg m, (boot image).run m₀ = .panicked msg m) ∨
      ∃ m, (boot image).run m₀ = .done () m ∧
        (∃ l, Chain m.ram m.freelist l ∧ l.Nodup ∧ ∀ f, f ∈ l ↔ WholePage image f) ∧
        ∀ s, Reach (pageStep image) InUse ⟨m, []⟩ s →
          ∃ l, Chain s.mem.ram s.mem.freelist l ∧ (l ++ s.allocated).Nodup ∧
            (∀ f, f ∈ l ∨ f ∈ s.allocated ↔ WholePage image f) ∧
            (∀ f ∈ s.allocated, ∃ m', (kfreeAt image (P2V (f * PGSIZE))).run s.mem = .done () m') ∧
            ∀ f m', kalloc.run s.mem = .done (some f) m' → f ∈ l ∧ f ∉ s.allocated := by
  rcases lt_or_ge (P2V FOURMIB) image.stop with hover | hle
  · refine .inl ⟨hover, ?_⟩
    rcases (wp_iff_run _).1 (wp_boot_panics (m := m₀) hover) with ⟨_, _, -, hno⟩ | ⟨msg, m, hrun, -⟩
    · exact hno.elim
    · exact ⟨msg, m, hrun⟩
  · refine .inr ?_
    obtain ⟨⟨⟩, m, hrun, l, hc, hnd, hall⟩ := (wp_noPanic_iff _).1 (wp_boot (m := m₀) hle)
    refine ⟨m, hrun, ⟨l, hc, hnd, hall⟩, fun s hreach => ?_⟩
    have hstart : Partition image ⟨m, []⟩ l := ⟨hle, hc, by simpa using hnd, by simpa using hall⟩
    obtain ⟨l', h⟩ : ∃ l', Partition image s l' := by
      refine hreach.invariant (I := fun s => ∃ l, Partition image s l) ⟨l, hstart⟩ ?_
      rintro s a s' ⟨l, h⟩ hok hs
      exact h.step hok hs
    refine ⟨l', h.chain, h.nodup, fun f => ?_, fun f hf => ⟨_, (h.kfree hf).1⟩, fun f m' hrun => ?_⟩
    · rw [← h.all f, mem_append]
    · obtain ⟨l'', rfl, -⟩ := h.kalloc hrun
      exact ⟨mem_cons_self, fun hin => disjoint_of_nodup_append h.nodup
        mem_cons_self hin⟩

/-- A kernel that ends within its second page. -/
def twoPages : KernelImage := ⟨KERNLINK + 0x1234, Nat.le_add_right _ _⟩

/-- Boot, then one `kalloc` and the `kfree` of what it returned. -/
theorem page_allocator_twoPages : ∃ m f m₁ m₂ l,
    (boot twoPages).run ⟨fun _ => Page.fill 0, 0, 0, 0, []⟩ = .done () m ∧
    kalloc.run m = .done (some f) m₁ ∧
    (kfreeAt twoPages (P2V (f * PGSIZE))).run m₁ = .done () m₂ ∧
    Chain m₂.ram m₂.freelist l ∧ l.Nodup ∧ ∀ g, g ∈ l ↔ WholePage twoPages g := by
  rcases page_allocator twoPages ⟨fun _ => Page.fill 0, 0, 0, 0, []⟩ with
    ⟨hover, -⟩ | ⟨m, hboot, ⟨l, hc, -, hall⟩, hruns⟩
  · rw [P2V_of_lt (by decide)] at hover
    exact absurd hover (by decide)
  -- the first page of the second range is on the list
  have hmem : 1024 ∈ l := (hall 1024).2 (Or.inr ⟨by decide, by decide⟩)
  have hwp : kalloc.wp noPanic (fun r _ => ∃ f, r = some f) m :=
    wp_kalloc hc (Or.inr (length_pos_of_mem hmem)) fun f _ _ => ⟨f, rfl⟩
  obtain ⟨_, m₁, halloc, f, rfl⟩ := (wp_noPanic_iff _).1 hwp
  have hone : Reach (pageStep twoPages) InUse ⟨m, []⟩ ⟨m₁, [f]⟩ := by
    refine Reach.step (a := .kalloc) .init trivial ?_
    rw [pageStep, halloc]
    rfl
  obtain ⟨_, -, -, -, hfree, -⟩ := hruns _ hone
  obtain ⟨m₂, hkfree⟩ := hfree f (mem_singleton.2 rfl)
  have htwo : Reach (pageStep twoPages) InUse ⟨m, []⟩ ⟨m₂, []⟩ := by
    refine Reach.step (a := .kfree f) hone (mem_singleton.2 rfl) ?_
    rw [pageStep, hkfree]
    simp [Pages.afterKfree]
  obtain ⟨l₂, hc₂, hnd₂, hall₂, -⟩ := hruns _ htwo
  exact ⟨m, f, m₁, m₂, l₂, hboot, halloc, hkfree, hc₂, by simpa using hnd₂, by simpa using hall₂⟩

end Xv6.Mm
