import Xv6.Fs.Budget
import Xv6.Mkfs.Mount

/-!
# `filewrite` against the reservation of `begin_op`

`begin_op` reserves `MAXOPBLOCKS` blocks of the log for each transaction, and
`filewrite` writes up to `maxChunk` bytes in one.

* `AtSection` — the transactions of a `filewrite`, one after the other.
* `section_within_iff` — when one of them keeps to the reservation.
* `section_overrun` — one that does not.
-/

namespace Xv6.Fs

open Lib Prog

namespace Vol

variable {τ : Type} {D : Devsw τ} {me : τ} {f : Fin NFILE} {src : ℕ → UInt8}
  {n i : ℕ} {s₀ s s' : Vol τ}

/-- `filewrite` of `n` bytes, called in `s₀`, is about to start a transaction in `s`
with `i` bytes written. -/
inductive AtSection (D : Devsw τ) (me : τ) (f : Fin NFILE) (src : ℕ → UInt8) (n : ℕ)
    (s₀ : Vol τ) : ℕ → Vol τ → Prop
  | first : AtSection D me f src n s₀ 0 s₀
  | next {i : ℕ} {s s' : Vol τ} : AtSection D me f src n s₀ i s → i < n →
      (writeSection D me f (fun k => src (i + k)) (min (n - i) maxChunk)).run s =
        .done ((min (n - i) maxChunk : ℕ) : ℤ) s' →
      AtSection D me f src n s₀ (i + min (n - i) maxChunk) s'

/-- These are the transactions of the loop in `filewrite`. -/
theorem AtSection.run_loop (h : AtSection D me f src n s₀ i s) : ∃ fuel, n - i ≤ fuel ∧
    (writeSections D me f src n n 0).run s₀ = (writeSections D me f src n fuel i).run s := by
  induction h with
  | first => exact ⟨n, Nat.sub_le n 0, rfl⟩
  | @next i s s' _ hlt hrun ih =>
    obtain ⟨fuel, hle, heq⟩ := ih
    have hchunk : maxChunk = 6656 := rfl
    obtain ⟨fuel, rfl⟩ : ∃ k, fuel = k + 1 := ⟨fuel - 1, by omega⟩
    refine ⟨fuel, by omega, ?_⟩
    rw [heq, writeSections, if_pos hlt, bind_eq, run_bind_of_done hrun,
      if_neg (by omega), if_neg (by simp), Int.toNat_natCast]

/-- A transaction that ended was admitted at once. -/
theorem mustWait_of_run {r : ℤ} {k : ℕ} (hrun : (writeSection D me f src k).run s = .done r s') :
    s.log.mustWait = false := by
  by_contra hw
  rw [Bool.not_eq_false] at hw
  have hstuck : (writeSection D me f src k).run s = .stuck s := by
    simp only [writeSection, beginOp, bind_eq, Prog.await, step_bind, Prog.run, hw]
    rfl
  rw [hstuck] at hrun
  cases hrun

theorem wrote_of_run (h : Ready s f) {r : ℤ} {k : ℕ}
    (hrun : (writeSection D me f src k).run s = .done r s') : Wrote f k s r s' :=
  of_wp_of_run (wp_writeSection (E := anyPanic) D h src (mustWait_of_run hrun)
    (Or.inr fun _ => trivial) (Or.inr fun _ => trivial)) hrun

theorem AtSection.ready (h : AtSection D me f src n s₀ i s) (h₀ : Ready s₀ f) : Ready s f := by
  induction h with
  | first => exact h₀
  | next _ _ hrun ih => exact (wrote_of_run ih hrun).ready

/-- For every regular file, position and length, a transaction of `filewrite` passes at
most `MAXOPBLOCKS` distinct blocks to `log_write` exactly if the blocks it writes, the
free-map blocks of those it allocates, the indirect block if it gets an entry and the
inode's block if the file grows are that many at most. -/
theorem section_within_iff (h₀ : Ready s₀ f) (h : AtSection D me f src n s₀ i s) {r : ℤ}
    (hrun : (writeSection D me f (fun k => src (i + k)) (min (n - i) maxChunk)).run s =
      .done r s') :
    (s'.passed.drop s.passed.length).toFinset.card ≤ MAXOPBLOCKS ↔
      s.sectionCost f (min (n - i) maxChunk) ≤ MAXOPBLOCKS := by
  rw [(wrote_of_run (h.ready h₀) hrun).card]

/-! ## The first transaction on an empty file -/

open Mkfs Mkfs.Tool

/-- The volume of an image whose first file is open, at its start. -/
def openFirst (m : Tool) : Vol Unit :=
  { withInode m.vol 2 with
    file := fun _ =>
      { ftype := .inode, readable := true, writable := true, ip := ⟨0, by decide⟩, off := 0 } }

theorem ready_openFirst {m : Tool} {host : List UInt8 → Option (List UInt8)} {name : List UInt8}
    (hb : Built host [name] m) (f : Fin NFILE) : Ready (openFirst m) f := by
  obtain ⟨hs, -, hl, hnum, hd⟩ := sound_withInode hb.shows.sound (fun _ => rfl)
    (hb.shows.lt_ninodes (show 2 < 200 by decide))
  obtain ⟨data, -, hc⟩ := hb.file 0 name rfl
  refine ⟨⟨hs.wf, hs.super, hs.meta_marked, hs.refs, hs.slots, hs.inums⟩, fun _ => rfl,
    hl.1, ?_, ?_⟩
  · change ((withInode m.vol 2).inode 0).lock = none
    rw [inode_withInode]
  · change ((withInode m.vol 2).dinode ((withInode m.vol 2).num 0)).itype = _
    rw [hnum, hd]
    exact hc.itype

/-- An image with one empty file and a hundred blocks to spare. -/
theorem built_empty (name : List UInt8) :
    ∃ m, Built (fun _ => some []) [name] m ∧ 100 ≤ (m.vol).free.length := by
  obtain ⟨m₀, hroot, hfree⟩ := withRoot_fits
  have hread : Readable (fun _ => some []) [name] := fun _ _ => ⟨[], rfl, Nat.zero_le _⟩
  have hcost : blocksForFiles (fun _ => some []) [name] = blocksForFile [] := by
    simp [blocksForFiles]
  have hone : [name].length ≤ 198 := by simp
  obtain ⟨m, -, hb, hleft⟩ := foldlM_fits (n := 100) hone hread
    (withRoot_built hroot) (le_trans (by rw [hcost]; decide) hfree)
  exact ⟨m, hb, hleft⟩

theorem card_freeMapBlocks_layout {s : Vol Unit} (hsb : s.sb = layout) (i : ℕ) (K : List ℕ) :
    (s.freeMapBlocks i K).card ≤ 1 := by
  rw [← Finset.card_singleton 58]
  refine Finset.card_le_card fun x hx => ?_
  obtain ⟨b, hb, rfl⟩ := Finset.mem_image.1 hx
  have hlt := (mem_free.1 (allocated_subset_free s i K (List.mem_toFinset.1 hb))).1
  rw [hsb] at hlt ⊢
  rw [bblock_layout hlt]
  exact Finset.mem_singleton_self _

/-- What a write at the start of the file costs, on a volume of `mkfs`. -/
theorem cost_layout {s : Vol Unit} (hsb : s.sb = layout) (i off n : ℕ) :
    (span off n).length ≤ s.cost i off n ∧ s.cost i off n ≤ (span off n).length + 3 := by
  have h1 := card_freeMapBlocks_layout hsb i (span off n)
  rw [cost]
  split_ifs <;> omega

/-- On an empty file there is room for any transaction. -/
theorem room_openFirst {m : Tool} {name : List UInt8} (hb : Built (fun _ => some []) [name] m)
    (hfree : 100 ≤ (m.vol).free.length) {n : ℕ} (hn : n ≤ maxChunk) :
    ((openFirst m).opened () 0).newBlocks 2 (span 0 n) ≤ ((openFirst m).opened () 0).free.length ∧
      ((openFirst m).opened () 0).log.Room (((openFirst m).opened () 0).writeSet 0 0 n) := by
  obtain ⟨hs, hrefs, hl, hd⟩ := (ready_openFirst hb 0).opened ()
  have hsb : (openFirst m).sb = layout := hb.shows.sb
  have hchunk : maxChunk = 6656 := rfl
  have hlen : (span 0 n).length ≤ 13 := by
    rw [length_span_zero]
    change (n + 512 - 1) / 512 ≤ 13
    omega
  have hnew : ((openFirst m).opened () 0).newBlocks 2 (span 0 n) ≤
      ((openFirst m).opened () 0).free.length := by
    refine le_trans (newBlocks_le _ _ _ _) (le_trans ?_ hfree)
    change n / 512 + 3 ≤ 100
    omega
  have hnum : ((openFirst m).opened () 0).num 0 = 2 := rfl
  have hcost := cost_layout (s := (openFirst m).opened () 0) hsb 2 0 n
  have hcard : (((openFirst m).opened () 0).writeSet 0 0 n).card =
      ((openFirst m).opened () 0).cost (((openFirst m).opened () 0).num 0) 0 n :=
        hs.card_writeSet hl hnew
  refine ⟨hnew, List.nodup_nil, le_refl _, rfl, ?_⟩
  change (∅ ∪ ((openFirst m).opened () 0).writeSet 0 0 n).card < min 30 (m.sb.nlog - 1)
  rw [Finset.empty_union, hcard, hnum, hb.shows.plain.sb]
  change _ < 29
  omega

/-- The first transaction on an empty file ends, and this is what it logs. -/
theorem section_empty (src : ℕ → UInt8) {n : ℕ} (hn : n ≤ maxChunk) : ∃ s : Vol Unit, Ready s 0 ∧
    ∃ r s', (writeSection noDev () 0 src n).run s = .done r s' ∧ Wrote 0 n s r s' ∧
      (span 0 n).length ≤ s.sectionCost 0 n ∧ s.sectionCost 0 n ≤ (span 0 n).length + 3 := by
  obtain ⟨m, hb, hfree⟩ := built_empty [97]
  have hready := ready_openFirst hb 0
  have hsb : (openFirst m).sb = layout := hb.shows.sb
  have hchunk : maxChunk = 6656 := rfl
  have hmax : MAXFILE * BSIZE = 71680 := rfl
  obtain ⟨hnew, hroom⟩ := room_openFirst hb hfree hn
  obtain ⟨r, s', hrun, hwrote⟩ := (wp_noPanic_iff _).1
    (wp_writeSection noDev hready src rfl (Or.inl hnew) (Or.inl hroom))
  refine ⟨openFirst m, hready, r, s', hrun, hwrote, ?_⟩
  have hacc : (openFirst m).Accepts 2 0 n := ⟨Nat.zero_le _, by omega⟩
  have hsection : (openFirst m).sectionCost 0 n = (openFirst m).cost 2 0 n := if_pos hacc
  rw [hsection]
  exact cost_layout hsb 2 0 n

/-- A write of one byte to an empty file keeps to the reservation. -/
theorem section_within_iff_byte : ∃ (s s' : Vol Unit) (r : ℤ),
    (writeSection noDev () 0 (fun _ => 7) 1).run s = .done r s' ∧
      (s'.passed.drop s.passed.length).toFinset.card ≤ MAXOPBLOCKS := by
  obtain ⟨s, hready, r, s', hrun, -, -, hle⟩ := section_empty (fun _ => 7) (n := 1) (by decide)
  refine ⟨s, s', r, hrun, (section_within_iff hready
    (show AtSection noDev () 0 (fun _ => 7) 1 s 0 s from .first) hrun).2 ?_⟩
  exact le_trans hle (by decide)

/-- A write of `maxChunk` bytes to an empty file does not: it has 13 data blocks. -/
theorem section_overrun : ∃ (s s' : Vol Unit) (r : ℤ), Ready s 0 ∧
    (writeSection noDev () 0 (fun _ => 7) maxChunk).run s = .done r s' ∧
      MAXOPBLOCKS < (s'.passed.drop s.passed.length).toFinset.card := by
  obtain ⟨s, hready, r, s', hrun, hwrote, hge, -⟩ := section_empty (fun _ => 7) le_rfl
  refine ⟨s, s', r, hready, hrun, ?_⟩
  rw [hwrote.card]
  exact lt_of_lt_of_le (by decide) hge

end Vol

end Xv6.Fs
