import Xv6.Mm.Exhaustion
import Xv6.Sys.Args

/-!
# Growing and shrinking a process

`growproc` of `crates/proc/src/proc.rs` and `sys_sbrk` of `crates/syscall/src/sysproc.rs`.  A
size of `0` means failure to `growproc`, although `deallocuvm` returns it for a process that
has been shrunk to nothing, and a sum below zero wraps to a size above the present one.
`sys_sbrk` declares `growproc` with an `i32`, so that a negative amount arrives as one just
below `2 ^ 32`.

* `Exactly` — the pages of `[PGSIZE, PGROUNDUP(sz))` are mapped, and no others.
* `growproc_allOrNothing_iff` — the amounts for which `growproc` does all or nothing.
* `sbrk_honours_iff` — `sbrk` honours the amounts that are not negative.
-/

namespace Xv6.Sys

open Lib Mm
open Prog hiding ret

/-- `growproc` returns `-1` and has changed nothing, or `0` and the size and the pages are those
that were asked for. -/
def AllOrNothing (r sz : ℕ) (n : ℤ) (m : Mem) : Prop :=
  ∀ ret sz' m', (growproc r sz n).run m = .done (ret, sz') m' →
    (ret = -1 → sz' = sz ∧ ∀ v < UPAGES, Unchanged m m' r v) ∧
    (ret = 0 → (sz' : ℤ) = sz + n ∧ Exactly m'.ram r sz')

/-- `sys_sbrk`, for a process of this root and size: what it returns, and the new size.  The
argument is the low half of `rdi` as an `i32`; it is passed on in the low half of a register,
of which `growproc` reads the whole. -/
def sys_sbrk (tf : ArgRegs) (pgdir sz : ℕ) : Prog Mem (ℕ × ℕ) := do
  let n := asI32 tf.rdi
  let (ret, sz') ← growproc pgdir sz (n % 2 ^ 32)
  if ret < 0 then pure (2 ^ 64 - 1, sz') else pure (sz, sz')

variable {κ σ : Type} {T : κ → Option ℕ} {S : σ → Option ℕ} {k : κ} {m m' : Mem} {l : List ℕ}
  {ram : ℕ → Page} {r sz v : ℕ} {n : ℤ} {E : String → Prop}

variable [DecidableEq κ] [DecidableEq σ]

/-! ## Growth -/

/-- What a process has after it has grown. -/
structure Grown (r sz newsz : ℕ) (m m' : Mem) : Prop where
  /-- The pages below the old size are as they were. -/
  old : ∀ v < UPAGES, v < pageUp sz → Unchanged m m' r v
  /-- The new ones are zero and the user's. -/
  fresh : ∀ v, pageUp sz ≤ v → v < pageUp newsz → view m'.ram r v = some (freshPage v)
  /-- No others are mapped, unless page `0` is one of the new ones. -/
  exact : 0 < sz → Exactly m'.ram r newsz

omit [DecidableEq κ] [DecidableEq σ] in
theorem Grown.of_allocated {newsz : ℕ} {used fs l' : List ℕ} (h : Owned m l T S) (hk : T k = some r)
    (hmaps : Exactly m.ram r sz) (hle : sz ≤ newsz)
    (hbound : pageUp newsz ≤ UPAGES) (hl : l = used ++ l')
    (ha : Allocated r freshPage (List.range' (pageUp sz) (pageUp newsz - pageUp sz)) used fs
      fs m m') :
    Grown r sz newsz m m' := by
  have hup := pageUp_mono hle
  have hview := fun w hw => ha.view h hk hl (fun _ _ => loadable_freshPage) (w := w) hw
  have hmem := fun w => mem_pages (w := w) (pageUp sz) (pageUp newsz)
  have hold : ∀ w < UPAGES, w < pageUp sz → view m'.ram r w = view m.ram r w := fun w hw hlt => by
    rw [hview w hw, if_neg (by rw [hmem]; omega)]
  have hfresh : ∀ w, pageUp sz ≤ w → w < pageUp newsz → view m'.ram r w = some (freshPage w) :=
    fun w h1 h2 => by
    rw [hview w (lt_of_lt_of_le h2 hbound), if_pos ((hmem w).2 ⟨h1, h2⟩)]
  refine ⟨fun w hw hlt => ⟨?_, hold w hw hlt⟩, hfresh, fun hsz w => ?_⟩
  · have hpte := ha.ext.pte w hw (by rw [hmem]; omega)
    rw [node_index, node_index, hpte]
  · have hone : 1 ≤ pageUp sz := pageUp_pos hsz
    by_cases hlow : w < pageUp sz
    · constructor
      · rintro ⟨hw, hsome⟩
        rw [hold w hw hlow] at hsome
        exact ⟨((hmaps w).1 ⟨hw, hsome⟩).1, lt_of_lt_of_le hlow hup⟩
      · rintro ⟨h1, -⟩
        have hw := hmaps.lt h1 hlow
        rw [hold w hw hlow]
        exact ⟨hw, hmaps.isSome h1 hlow⟩
    · constructor
      · rintro ⟨hw, hsome⟩
        by_cases hnew : w < pageUp newsz
        · exact ⟨by omega, hnew⟩
        · rw [hview w hw, if_neg (by rw [hmem]; omega), hmaps.beyond (not_lt.1 hlow) hw] at hsome
          cases hsome
      · rintro ⟨-, hlt⟩
        rw [hfresh w (not_lt.1 hlow) hlt]
        exact ⟨lt_of_lt_of_le hlt hbound, rfl⟩

theorem wp_growproc_grown {n : ℕ} (h : Owned m l T S) (hk : T k = some r)
    (hmaps : Exactly m.ram r sz)
    (hn : 0 < n) (hbound : pageUp (sz + n) ≤ UPAGES) (hE : Spare E (growCost m r sz n) l) :
    (growproc r sz n).wp E (fun a m' => a = (0, sz + n) ∧ growCost m r sz n ≤ l.length ∧
      Grown r sz (sz + n) m m') m := by
  have hlt : sz + n < 2 ^ 64 := by
    change (sz + n + 4095) / 4096 ≤ 2 ^ 35 at hbound
    omega
  rw [growproc, if_pos (Int.natCast_pos.2 hn), Int.toNat_natCast, add64_of_lt hlt]
  simp only [bind_eq, ret_bind, wp_bind]
  refine wp_allocuvm h hk (Nat.le_add_right _ _) hbound
    (fun w hw hw' => hmaps.beyond hw (lt_of_lt_of_le hw' hbound)) hE
    fun m' used fs l' hl hused _ ha => ?_
  rw [if_neg (by omega)]
  exact ⟨rfl, need_le hl hused, .of_allocated h hk hmaps (Nat.le_add_right _ _) hbound hl ha⟩

/-- Whatever there is to grow into, a process that has grown has grown as it should. -/
theorem grown_of_run {n : ℕ} {sz' : ℕ} {ret : ℤ} (h : Owned m l T S) (hk : T k = some r)
    (hmaps : Exactly m.ram r sz) (hn : 0 < n) (hmax : n < 2 ^ 63)
    (hrun : (growproc r sz n).run m = .done (ret, sz') m') :
    (ret = -1 ∧ sz' = sz ∧ m' = m) ∨
      (ret = 0 ∧ sz' = sz + n ∧ growCost m r sz n ≤ l.length ∧ Grown r sz (sz + n) m m') := by
  have hsz := hmaps.sz_lt h hk
  by_cases hkern : KERNBASE ≤ sz + n
  · rw [growproc_refused hn hkern (by omega)] at hrun
    cases hrun
    exact .inl ⟨rfl, rfl, rfl⟩
  · by_cases hbound : pageUp (sz + n) ≤ UPAGES
    · obtain ⟨he, hg⟩ := of_wp_of_run
        (wp_growproc_grown (E := anyPanic) h hk hmaps hn hbound (Or.inl trivial)) hrun
      cases he
      exact .inr ⟨rfl, rfl, hg⟩
    · obtain ⟨m'', hout⟩ := growproc_beyond h hk hn (by omega) (not_le.1 hkern) hbound fun w =>
        hmaps.beyond
      rw [hout] at hrun
      cases hrun

/-! ## Shrinking -/

/-- What a process has after it has been shrunk. -/
structure Shrunk (r sz newsz : ℕ) (m m' : Mem) : Prop where
  /-- The pages below the new size are as they were. -/
  old : ∀ v < UPAGES, v < pageUp newsz → Unchanged m m' r v
  /-- The others are gone. -/
  gone : ∀ v < UPAGES, pageUp newsz ≤ v → v < pageUp sz → view m'.ram r v = none
  /-- So exactly those are mapped. -/
  exact : Exactly m'.ram r newsz

theorem Shrunk.of_released {newsz : ℕ} (hmaps : Exactly m.ram r sz) (hle : newsz ≤ sz)
    (hr : Released r (List.range' (pageUp newsz) (pageUp sz - pageUp newsz)) m m') :
    Shrunk r sz newsz m m' := by
  have hup := pageUp_mono hle
  have hmem := fun w => mem_pages (w := w) (pageUp newsz) (pageUp sz)
  have hold : ∀ w < UPAGES, w < pageUp newsz → Unchanged m m' r w := by
    intro w hw hlt
    refine hr.unchanged (fun v hv => ?_) hw (by rw [hmem]; omega)
    obtain ⟨h1, h2⟩ := (hmem v).1 hv
    exact hmaps.lt (by omega) h2
  have hgone : ∀ w < UPAGES, pageUp newsz ≤ w → w < pageUp sz → view m'.ram r w = none :=
    fun w hw h1 h2 => by
    rw [hr.view w hw, if_pos ((hmem w).2 ⟨h1, h2⟩)]
  refine ⟨hold, hgone, fun w => ⟨?_, ?_⟩⟩
  · rintro ⟨hw, hsome⟩
    have hlow : w < pageUp newsz := by
      by_contra hnot
      by_cases hmid : w < pageUp sz
      · rw [hgone w hw (not_lt.1 hnot) hmid] at hsome
        cases hsome
      · rw [hr.view w hw, if_neg (by rw [hmem]; omega), hmaps.beyond (not_lt.1 hmid) hw] at hsome
        cases hsome
    rw [(hold w hw hlow).2] at hsome
    exact ⟨((hmaps w).1 ⟨hw, hsome⟩).1, hlow⟩
  · rintro ⟨h1, hlow⟩
    have hmid := lt_of_lt_of_le hlow hup
    have hw := hmaps.lt h1 hmid
    rw [(hold w hw hlow).2]
    exact ⟨hw, hmaps.isSome h1 hmid⟩

/-- A negative amount that leaves something. -/
theorem run_growproc_shrunk (h : Owned m l T S) (hk : T k = some r) (hmaps : Exactly m.ram r sz)
    (hn : n < 0) (hle : 0 ≤ sz + n) : ∃ m', Shrunk r sz (sz + n).toNat m m' ∧
      (growproc r sz n).run m = .done (if sz + n = 0 then (-1, sz) else (0, (sz + n).toNat))
        m' := by
  have hsz := hmaps.sz_lt h hk
  have hmod : ((sz + n) % 2 ^ 64).toNat = (sz + n).toNat := by
    rw [Int.emod_eq_of_lt hle (by omega)]
  have hwp : (growproc r sz n).wp noPanic (fun a m' => Shrunk r sz (sz + n).toNat m m' ∧
      a = if sz + n = 0 then (-1, sz) else (0, (sz + n).toNat)) m := by
    rw [growproc, if_neg (by omega), if_pos hn, hmod]
    simp only [bind_eq, wp_bind]
    refine wp_deallocuvm h hk (by omega) ((hmaps.pageUp_le h hk).trans (by decide))
      fun m' fs hr _ _ => ?_
    have hs := Shrunk.of_released hmaps (by omega) hr
    by_cases hzero : sz + n = 0
    · rw [if_pos (by omega), if_pos hzero]
      exact ⟨hs, rfl⟩
    · rw [if_neg (by omega), if_neg hzero]
      exact ⟨hs, rfl⟩
  obtain ⟨a, m', hrun, hs, rfl⟩ := (wp_noPanic_iff _).1 hwp
  exact ⟨m', hs, hrun⟩

/-- A sum below zero wraps to a size that is not smaller, and nothing happens. -/
theorem run_growproc_wrapped (hsz : sz < 2 ^ 28) (hn : -2 ^ 63 ≤ n) (hlt : sz + n < 0) :
    (growproc r sz n).run m = .done (if sz = 0 then (-1, sz) else (0, sz)) m := by
  have hmod : (sz + n) % 2 ^ 64 = sz + n + 2 ^ 64 := by
    rw [← Int.add_emod_right, Int.emod_eq_of_lt (by omega) (by omega)]
  rw [growproc, if_neg (by omega), if_pos (by omega), hmod]
  simp only [bind_eq, deallocuvm]
  rw [if_pos (by omega)]
  by_cases hzero : sz = 0
  · rw [if_pos hzero]
    simp only [Prog.pure_eq, ret_bind, if_pos hzero]
    rfl
  · rw [if_neg hzero]
    simp only [Prog.pure_eq, ret_bind, if_neg hzero]
    rfl

/-! ## All or nothing -/

theorem allOrNothing_of_neg (h : Owned m l T S) (hk : T k = some r) (hmaps : Exactly m.ram r sz)
    (hmin : -2 ^ 63 ≤ n) (hn : n < 0) :
    AllOrNothing r sz n m ↔ 0 < sz + n ∨ sz = 0 ∨ (sz + n = 0 ∧ sz ≤ PGSIZE) := by
  have hsz := hmaps.sz_lt h hk
  by_cases hneg : sz + n < 0
  · -- the size stays, and it is right to say so only if it is `0`
    have hrun := run_growproc_wrapped (r := r) (m := m) hsz hmin hneg
    by_cases hzero : sz = 0
    · refine iff_of_true (fun ret sz' m' hrun' => ?_) (Or.inr (Or.inl hzero))
      rw [hrun, if_pos hzero] at hrun'
      cases hrun'
      exact ⟨fun _ => ⟨rfl, fun v _ => unchanged_refl⟩, fun he => absurd he (by decide)⟩
    · refine iff_of_false (fun hall => ?_) (by omega)
      rw [if_neg hzero] at hrun
      have he := ((hall 0 sz m hrun).2 rfl).1
      omega
  · obtain ⟨m', hs, hrun⟩ := run_growproc_shrunk h hk hmaps hn (not_lt.1 hneg)
    by_cases hzero : sz + n = 0
    · rw [if_pos hzero] at hrun
      rw [hzero] at hs
      by_cases hsmall : sz ≤ PGSIZE
      · refine iff_of_true (fun ret sz' m'' hrun' => ?_) (Or.inr (Or.inr ⟨hzero, hsmall⟩))
        rw [hrun] at hrun'
        cases hrun'
        have hone : pageUp sz ≤ 1 := pageUp_mono hsmall
        refine ⟨fun _ => ⟨rfl, fun v hv => ?_⟩, fun he => absurd he (by decide)⟩
        exact unchanged_of_none (hmaps.eq_none hv (by omega))
          (hs.exact.eq_none hv (by simp [pageUp_zero]))
      · refine iff_of_false (fun hall => ?_) (by omega)
        have htwo : 1 < pageUp sz := by
          change 1 < (sz + 4095) / 4096
          change ¬sz ≤ 4096 at hsmall
          omega
        have hone : 1 < UPAGES := by decide
        have hsome := hmaps.isSome le_rfl htwo
        rw [← (((hall _ _ _ hrun).1 rfl).2 1 hone).2, hs.exact.eq_none hone (by simp [pageUp_zero])]
          at hsome
        cases hsome
    · refine iff_of_true (fun ret sz' m'' hrun' => ?_) (Or.inl (by omega))
      rw [hrun, if_neg hzero] at hrun'
      cases hrun'
      refine ⟨fun he => absurd he (by decide), fun _ => ⟨Int.toNat_of_nonneg (not_lt.1 hneg),
        hs.exact⟩⟩

theorem allOrNothing_of_pos (h : Owned m l T S) (hk : T k = some r) (hmaps : Exactly m.ram r sz)
    (hn : 0 < n) (hmax : n < 2 ^ 63) :
    AllOrNothing r sz n m ↔ 0 < sz ∨ l.length < growCost m r sz n.toNat := by
  obtain ⟨n, rfl⟩ := Int.eq_ofNat_of_zero_le hn.le
  have hpos : 0 < n := by omega
  rw [Int.toNat_natCast]
  constructor
  · intro hall
    by_contra hnot
    rw [not_or, Nat.not_lt, Nat.not_lt] at hnot
    obtain ⟨hzero, henough⟩ := hnot
    obtain rfl : sz = 0 := by omega
    -- there are no more pages than frames, so there is room for them in the user half
    have hbound : pageUp (0 + n) ≤ UPAGES := by
      have hpages : pageUp (0 + n) - pageUp 0 ≤ growCost m r 0 n := by
        rw [growCost, cost, List.length_range']
        exact Nat.le_add_right _ _
      have hfree : l.length ≤ 57344 := h.length_le
      rw [pageUp_zero] at hpages
      change _ ≤ 2 ^ 35
      omega
    obtain ⟨_, m', hrun, rfl, -, hg⟩ := (wp_noPanic_iff _).1
      (wp_growproc_grown h hk hmaps hpos hbound (Or.inr henough))
    -- page `0` is mapped
    have hpage := (((hall 0 _ m' hrun).2 rfl).2 0).1 ⟨by decide, ?_⟩
    · exact absurd hpage.1 (by decide)
    · rw [hg.fresh 0 (by decide) (by rw [zero_add]; exact pageUp_pos hpos)]
      rfl
  · intro hor ret sz' m' hrun
    rcases grown_of_run h hk hmaps hpos (by omega) hrun with ⟨rfl, rfl, rfl⟩ | ⟨rfl, rfl, hle, hg⟩
    · exact ⟨fun _ => ⟨rfl, fun v _ => unchanged_refl⟩, fun he => absurd he (by decide)⟩
    · have hsz := hor.resolve_right (Nat.not_lt.2 hle)
      exact ⟨fun he => absurd he (by decide), fun _ => ⟨by push_cast; rfl, hg.exact hsz⟩⟩

/-- **`growproc` does all or nothing** for every amount but two kinds: those that lead from some
pages to a size of `0` or below, and those that grow a process of size `0` for which there are
frames enough: it is given page `0`. -/
theorem growproc_allOrNothing_iff (h : Owned m l T S) (hk : T k = some r)
    (hmaps : Exactly m.ram r sz) (hmin : -2 ^ 63 ≤ n) (hmax : n < 2 ^ 63) : AllOrNothing r sz n m ↔
      (0 < n → 0 < sz ∨ l.length < growCost m r sz n.toNat) ∧
      (n < 0 → 0 < sz + n ∨ sz = 0 ∨ (sz + n = 0 ∧ sz ≤ PGSIZE)) := by
  rcases lt_trichotomy n 0 with hn | rfl | hn
  · rw [and_iff_right fun hpos => absurd hpos (not_lt.2 hn.le)]
    simp only [hn, true_implies]
    exact allOrNothing_of_neg h hk hmaps hmin hn
  · simp only [lt_irrefl, false_implies, and_self, iff_true]
    intro ret sz' m' hrun
    cases hrun
    exact ⟨fun he => absurd he (by decide), fun _ => ⟨(add_zero _).symm, hmaps⟩⟩
  · rw [and_iff_left fun hneg => absurd hneg (not_lt.2 hn.le)]
    simp only [hn, true_implies]
    exact allOrNothing_of_pos h hk hmaps hn hmax

/-- The first process asks for one page more, or gives one back. -/
theorem growproc_allOrNothing_first :
    ∃ r m, (firstSpace 1024).run (bootMem 1024) = .done (some r) m ∧
    AllOrNothing r (2 * PGSIZE) PGSIZE m ∧ AllOrNothing r (2 * PGSIZE) (-PGSIZE) m := by
  obtain ⟨r, m, l, hrun, hown, hmaps, -⟩ := firstSpace_exactly
  refine ⟨r, m, hrun,
    (growproc_allOrNothing_iff hown (alone_true r) hmaps (by decide) (by decide)).2
      ⟨fun _ => ?_, fun h => ?_⟩,
    (growproc_allOrNothing_iff hown (alone_true r) hmaps (by decide) (by decide)).2
      ⟨fun h => ?_, fun _ => ?_⟩⟩
  · exact .inl (by decide)
  · exact absurd h (by decide)
  · exact absurd h (by decide)
  · exact .inl (by decide)

/-- It asks for all of it to be taken back: it is told that this failed, and has no page left. -/
theorem growproc_fails_halfway : ∃ r m m', (firstSpace 1024).run (bootMem 1024) = .done (some r) m ∧
    (view m.ram r 1).isSome ∧
    (growproc r (2 * PGSIZE) (-(2 * PGSIZE : ℕ))).run m = .done (-1, 2 * PGSIZE) m' ∧
    view m'.ram r 1 = none := by
  obtain ⟨r, m, l, hrun, hown, hmaps, -⟩ := firstSpace_exactly
  obtain ⟨m', hs, hgrow⟩ :=
    run_growproc_shrunk hown (alone_true r) hmaps (n := -(2 * PGSIZE : ℕ)) (by decide) (by decide)
  rw [if_pos (add_neg_cancel _)] at hgrow
  refine ⟨r, m, m', hrun, hmaps.isSome le_rfl (by decide), hgrow, ?_⟩
  refine hs.exact.eq_none (by decide) fun hin => absurd hin.2 ?_
  rw [add_neg_cancel, Int.toNat_zero, pageUp_zero]
  exact Nat.not_lt_zero 1

/-! ## `sbrk` -/

/-- `sbrk(n)` returns the old size and makes it `sz + n`; exactly the pages below it are
mapped, those the process had as they were and the others zero. -/
def Honours (tf : ArgRegs) (r sz : ℕ) (m : Mem) : Prop :=
  ∃ m', (sys_sbrk tf r sz).run m = .done (sz, (sz + asI32 tf.rdi).toNat) m' ∧
    Exactly m'.ram r (sz + asI32 tf.rdi).toNat ∧
    ∀ v, 1 ≤ v → v < pageUp (sz + asI32 tf.rdi).toNat →
      if v < pageUp sz then Unchanged m m' r v else view m'.ram r v = some (freshPage v)

omit [DecidableEq κ] [DecidableEq σ] in
theorem run_sys_sbrk {tf : ArgRegs} {sz' : ℕ}
    (hrun : (growproc r sz (asI32 tf.rdi % 2 ^ 32)).run m = .done (0, sz') m') :
    (sys_sbrk tf r sz).run m = .done (sz, sz') m' := by
  rw [sys_sbrk, bind_eq, run_bind_of_done hrun]
  rfl

/-- Amounts that are not negative arrive as they are. -/
theorem honours_of_nonneg {tf : ArgRegs} (h : Owned m l T S) (hk : T k = some r)
    (hmaps : Exactly m.ram r sz) (hpos : 0 < sz + asI32 tf.rdi) (hn : 0 ≤ asI32 tf.rdi)
    (henough : growCost m r sz (asI32 tf.rdi).toNat ≤ l.length) :
    Honours tf r sz m ↔ 0 < sz := by
  have hmod : asI32 tf.rdi % 2 ^ 32 = asI32 tf.rdi := by
    refine Int.emod_eq_of_lt hn ?_
    have hlt := Int.bmod_lt (x := tf.rdi) (m := 2 ^ 32) (by decide)
    change asI32 tf.rdi < _ at hlt
    omega
  rw [Honours]
  generalize hd : asI32 tf.rdi = n at *
  obtain ⟨n, rfl⟩ := Int.eq_ofNat_of_zero_le hn
  have hsum : (sz + (n : ℤ)).toNat = sz + n := by omega
  rw [hsum]
  rcases Nat.eq_zero_or_pos n with rfl | hnpos
  · refine iff_of_true ⟨m, run_sys_sbrk ?_, hmaps, fun v _ hv => ?_⟩ (by omega)
    · rw [hd]
      rfl
    · rw [if_pos (show v < pageUp sz from hv)]
      exact unchanged_refl
  · have hpages : pageUp (sz + n) - pageUp sz ≤ l.length := by
      refine le_trans ?_ henough
      rw [Int.toNat_natCast, growCost, cost, List.length_range']
      exact Nat.le_add_right _ _
    have hbound : pageUp (sz + n) ≤ UPAGES := by
      have h1 := hmaps.pageUp_le h hk
      have h2 : l.length ≤ 57344 := h.length_le
      change _ ≤ 2 ^ 35
      omega
    obtain ⟨a, m', hrun, rfl, -, hg⟩ := (wp_noPanic_iff _).1
      (wp_growproc_grown (E := noPanic) h hk hmaps hnpos hbound (Or.inr henough))
    have hsbrk : (sys_sbrk tf r sz).run m = .done (sz, sz + n) m' := by
      refine run_sys_sbrk ?_
      rw [hd, hmod]
      exact hrun
    constructor
    · rintro ⟨m'', hrun', hexact, -⟩
      rw [hsbrk] at hrun'
      cases hrun'
      by_contra hsz
      obtain rfl : sz = 0 := by omega
      have hzero := ((hexact 0).1 ⟨by decide, ?_⟩).1
      · exact absurd hzero (by decide)
      · rw [hg.fresh 0 (by decide) (pageUp_pos (by omega))]
        rfl
    · intro hsz
      refine ⟨m', hsbrk, hg.exact hsz, fun v _ hv => ?_⟩
      split_ifs with hlow
      · exact hg.old v (lt_of_lt_of_le hv hbound) hlow
      · exact hg.fresh v (not_lt.1 hlow) hv

/-- The upper half of the register is zero. -/
theorem zeroExtended_of_neg (hmin : -2 ^ 32 ≤ n) (hn : n < 0) :
    ∃ d : ℕ, n % 2 ^ 32 = d ∧ (d : ℤ) = n + 2 ^ 32 := by
  obtain ⟨d, hd⟩ := Int.eq_ofNat_of_zero_le (show 0 ≤ n + 2 ^ 32 by omega)
  refine ⟨d, ?_, hd.symm⟩
  rw [← hd, ← Int.add_emod_right, Int.emod_eq_of_lt (by omega) (by omega)]

/-- Negative ones arrive as more than there is. -/
theorem sbrk_out_of_neg (tf : ArgRegs) (h : Owned m l T S) (hk : T k = some r)
    (hmaps : Exactly m.ram r sz) (hpos : 0 < sz + asI32 tf.rdi) (hn : asI32 tf.rdi < 0) :
    OutOfMemory (sys_sbrk tf r sz) m := by
  have hsz := hmaps.sz_lt h hk
  obtain ⟨d, hmod, hd⟩ := zeroExtended_of_neg (n := asI32 tf.rdi) (by omega) hn
  have h1 := hmaps.pageUp_le h hk
  have h2 : l.length ≤ 57344 := h.length_le
  obtain ⟨m', hout⟩ := growproc_out h hk (show 0 < d by omega)
    (show pageUp (sz + d) ≤ UPAGES by
      change (sz + d + 4095) / 4096 ≤ 2 ^ 35
      omega) (fun w => hmaps.beyond)
    (show pageUp sz + l.length < pageUp (sz + d) by
      change _ < (sz + d + 4095) / 4096
      omega)
  refine ⟨m', ?_⟩
  rw [sys_sbrk, hmod, bind_eq, run_bind, hout]

/-- **`sbrk` honours what is not negative.**  For every argument that leads to a size above `0`
for which there are frames, `sbrk` does what it should exactly where the
argument is not negative and the process has a size. -/
theorem sbrk_honours_iff {tf : ArgRegs} (h : Owned m l T S) (hk : T k = some r)
    (hmaps : Exactly m.ram r sz) (hpos : 0 < sz + asI32 tf.rdi)
    (henough : growCost m r sz (asI32 tf.rdi).toNat ≤ l.length) :
    Honours tf r sz m ↔ 0 < sz ∧ 0 ≤ asI32 tf.rdi := by
  by_cases hn : 0 ≤ asI32 tf.rdi
  · rw [honours_of_nonneg h hk hmaps hpos hn henough, and_iff_left hn]
  · refine iff_of_false ?_ fun hc => hn hc.2
    rintro ⟨m', hrun, -⟩
    obtain ⟨m'', hout⟩ := sbrk_out_of_neg tf h hk hmaps hpos (not_le.1 hn)
    rw [hout] at hrun
    cases hrun

/-- Registers with one argument. -/
def oneArg (rdi : ℕ) : ArgRegs := ⟨rdi, 0, 0, 0, 0, 0⟩

/-- The first process asks for another page. -/
theorem sbrk_honours_first : ∃ r m, (firstSpace 1024).run (bootMem 1024) = .done (some r) m ∧
    Honours (oneArg PGSIZE) r (2 * PGSIZE) m := by
  obtain ⟨r, m, l, hrun, hown, hmaps, hlen, -⟩ := firstSpace_exactly
  have harg : asI32 (oneArg PGSIZE).rdi = 4096 := by decide
  refine ⟨r, m, hrun, (sbrk_honours_iff hown (alone_true r) hmaps ?_ ?_).2 ⟨by decide, by decide⟩⟩
  · rw [harg]
    decide
  · have hpages : List.range' (pageUp (2 * PGSIZE))
      (pageUp (2 * PGSIZE + 4096) - pageUp (2 * PGSIZE)) = [2] := by
      decide
    have hmissing : (missing m.ram r [2]).card ≤ 3 :=
      (Finset.card_filter_le _ _).trans (show tables [2] ≤ 3 by decide)
    rw [harg, growCost, show (4096 : ℤ).toNat = 4096 from rfl, hpages, cost, List.length_singleton]
    omega

/-- It gives one back with `sbrk(-PGSIZE)`, and the kernel panics. -/
theorem sbrk_negative_panics : ∃ r m m', (firstSpace 1024).run (bootMem 1024) = .done (some r) m ∧
    asI32 (oneArg (2 ^ 64 - PGSIZE)).rdi = -PGSIZE ∧
    (sys_sbrk (oneArg (2 ^ 64 - PGSIZE)) r (2 * PGSIZE)).run m = .panicked "Out of memory!" m' := by
  obtain ⟨r, m, l, hrun, hown, hmaps, -⟩ := firstSpace_exactly
  have harg : asI32 (oneArg (2 ^ 64 - PGSIZE)).rdi = -PGSIZE := by decide
  obtain ⟨m', hout⟩ := sbrk_out_of_neg (oneArg (2 ^ 64 - PGSIZE)) hown (alone_true r) hmaps
    (by rw [harg]; decide) (by rw [harg]; decide)
  exact ⟨r, m, m', hrun, harg, hout⟩

end Xv6.Sys
