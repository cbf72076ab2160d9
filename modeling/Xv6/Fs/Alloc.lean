import Xv6.Fs.Ownership

/-!
# Allocating blocks

What `log_write` and `balloc` do on their own.  The rules of this file and the
next ones serve two readings: with room in the log and blocks to spare the code
returns (`RoomOr`, `Spare` with no panic accepted), and without either, what it
has done if it returns (every panic accepted).

* `wp_balloc` — `balloc` takes the first free block, marks and zeroes it.
-/

namespace Xv6.Fs

open Lib Prog List

namespace Vol

variable {τ α : Type} {s : Vol τ} {E : String → Prop} {me : τ} {F : Finset ℕ}

/-! ## The steps -/

section Steps

variable {Q : Unit → Vol τ → Prop}

@[simp] theorem wp_read (b : ℕ) :
    (read me b).wp E Q s ↔ s.held b = none ∧ Q () (s.setHeld b (some me)) := by
  simp [read]

@[simp] theorem wp_dataOf (b : ℕ) {R : Block → Vol τ → Prop} :
    (dataOf b).wp E R s ↔ R (s.blk b) s := by
  simp [dataOf]

@[simp] theorem wp_modify (b : ℕ) (f : Block → Block) :
    (modify b f).wp E Q s ↔ Q () (s.setBlk b (f (s.blk b))) := by
  simp [modify]

@[simp] theorem wp_release (b : ℕ) : (release b).wp E Q s ↔ Q () (s.setHeld b none) := by
  simp [release]

/-- The volume once a block is recorded in the log. -/
def logged (s : Vol τ) (b : ℕ) : Vol τ :=
  { s with log := s.log.recorded b, passed := s.passed ++ [b] }

theorem wp_logWrite (h : s.log.RoomOr E F) (b : ℕ) (hQ : Q () (s.logged b)) :
    (logWrite b).wp E Q s := by
  simp only [logWrite, bind_eq, wp_bind, wp_panicIf, decide_eq_true_eq, decide_eq_false_iff_not]
  refine ⟨fun hbig => ?_, fun hbig => ⟨fun hopen => ?_, fun _ => ?_⟩⟩
  · refine (h.resolve_left fun hr => ?_) _
    rw [hr.tooBig] at hbig
    cases hbig
  · refine (h.resolve_left fun hr => ?_) _
    have := hr.outstanding
    omega
  · refine (wp_critical _).2 (Or.inl ⟨(), s.logged b, ?_, hQ⟩)
    rw [recordSection, Log.record_of_lt ((Log.tooBig_eq_false_iff s.log).1 hbig).1]
    rfl

/-- The volume once a block has new contents, logged. -/
def put (s : Vol τ) (b : ℕ) (d : Block) : Vol τ := (s.setBlk b d).logged b

theorem setHeld_none (s : Vol τ) (me : τ) {b : ℕ} (h : s.held b = none) :
    (s.setHeld b (some me)).setHeld b none = s := by
  have hheld : Function.update s.held b none = s.held := by
    rw [← h, Function.update_eq_self]
  simp only [setHeld, Function.update_idem, hheld]

/-- Locking a block, changing it, logging it and releasing it. -/
theorem put_eq {b : ℕ} (h : s.held b = none) (d : Block) :
    (((s.setHeld b (some me)).setBlk b d).logged b).setHeld b none = s.put b d := by
  have hheld : Function.update s.held b none = s.held := by
    rw [← h, Function.update_eq_self]
  simp only [put, setHeld, setBlk, logged, Function.update_idem, hheld]

/-- The rule for changing a block just locked. -/
theorem wp_finish (hroom : s.log.RoomOr E F) {b : ℕ} (hheld : s.held b = none) (f : Block → Block)
    {k : Unit → Prog (Vol τ) α} {R : α → Vol τ → Prop}
    (hk : (k ()).wp E R (s.put b (f (s.blk b)))) :
    ((modify b f).bind fun _ => (logWrite b).bind fun _ => (release b).bind k).wp E R
      (s.setHeld b (some me)) := by
  simp only [wp_bind, wp_modify]
  refine wp_logWrite (s := (s.setHeld b (some me)).setBlk b (f (s.blk b))) hroom b ?_
  rw [wp_release]
  exact (congrArg (fun t => (k ()).wp E R t) (put_eq hheld _)).to_iff.2 hk

/-- The rule for changing one block. -/
theorem wp_update (hroom : s.log.RoomOr E F) {b : ℕ} (hheld : s.held b = none) (f : Block → Block)
    {k : Unit → Prog (Vol τ) α} {R : α → Vol τ → Prop}
    (hk : (k ()).wp E R (s.put b (f (s.blk b)))) :
    ((read me b).bind fun _ => (modify b f).bind fun _ => (logWrite b).bind fun _ =>
      (release b).bind k).wp E R s := by
  rw [wp_bind, wp_read]
  exact ⟨hheld, wp_finish hroom hheld f hk⟩

theorem wp_bzero (hroom : s.log.RoomOr E F) {b : ℕ} (hheld : s.held b = none)
    (hQ : Q () (s.put b Block.zero)) : (bzero me b).wp E Q s := by
  have h : (((read me b).bind fun _ => (modify b fun _ => Block.zero).bind fun _ =>
      (logWrite b).bind fun _ => (release b).bind Prog.ret)).wp E Q s :=
    wp_update hroom hheld _ hQ
  rwa [bind_ret] at h

end Steps

/-! ## `balloc` -/

/-- The free blocks, in order. -/
def free (s : Vol τ) : List ℕ := (List.range s.sb.size).filter fun b => !s.bit b

theorem mem_free {b : ℕ} : b ∈ s.free ↔ b < s.sb.size ∧ s.bit b = false := by
  simp [free]

theorem nodup_free (s : Vol τ) : s.free.Nodup := nodup_range.filter _

theorem free_eq_cons {b : ℕ} {rest : List ℕ} (h : s.free = b :: rest) :
    b < s.sb.size ∧ s.bit b = false ∧ ∀ j, j < b → s.bit j = true := by
  have hfind : (List.range s.sb.size).find? (fun b => !s.bit b) = some b := by
    rw [← head?_filter]
    exact congrArg List.head? h
  rw [find?_range_eq_some] at hfind
  obtain ⟨h1, h2, h3⟩ := hfind
  exact ⟨mem_range.1 h2, by simpa using h1, fun j hj => by simpa using h3 j hj⟩

theorem Sound.free_data (h : Sound s) {b : ℕ} (hb : b ∈ s.free) : s.sb.dataStart ≤ b := by
  by_contra hlt
  have := h.meta_marked b (by omega)
  rw [(mem_free.1 hb).2] at this
  cases this

theorem Sound.free_unlisted (h : Sound s) {b : ℕ} (hb : b ∈ s.free) (k : ℕ × Place) :
    s.refs k ≠ b := by
  intro he
  have h0 : s.refs k ≠ 0 := by
    have h1 := h.one_lt_data (h.free_data hb) (mem_free.1 hb).1
    omega
  have hm := (h.refs.good k h0).2.2
  rw [he, (mem_free.1 hb).2] at hm
  cases hm

/-- Whatever buffer is held is that of a marked data block. -/
def Calm (s : Vol τ) : Prop := ∀ x, s.held x ≠ none → s.Marked x

theorem Calm.free (hc : s.Calm) {b : ℕ} (hb : b ∈ s.free) : s.held b = none := by
  by_contra hne
  have hm := (hc b hne).2.2
  rw [(mem_free.1 hb).2] at hm
  cases hm

/-- There are `n` free blocks, or every panic is accepted. -/
def Spare (s : Vol τ) (E : String → Prop) (n : ℕ) : Prop := n ≤ s.free.length ∨ ∀ msg, E msg

theorem Spare.mono {m n : ℕ} (h : s.Spare E n) (hle : m ≤ n) : s.Spare E m :=
  h.imp_left hle.trans

theorem Calm.lt (hc : s.Calm) {b : ℕ} (hb : b < s.sb.dataStart) : s.held b = none := by
  by_contra hne
  have hm := (hc b hne).1
  omega

/-- The volume after `balloc`. -/
def alloc (s : Vol τ) (b : ℕ) : Vol τ :=
  (s.put (bblock b s.sb) ((s.blk (bblock b s.sb)).setBit (b % BPB))).put b Block.zero

/-- The bits of the free-map block for the blocks from `k * BPB` on. -/
theorem bit_mul_add (k : ℕ) {i : ℕ} (hi : i < BPB) :
    (s.blk (bblock (k * BPB) s.sb)).bit i = s.bit (k * BPB + i) := by
  have hdiv : bblock (k * BPB + i) s.sb = bblock (k * BPB) s.sb := by
    rw [Superblock.bblock_eq_iff, Nat.add_comm, Nat.add_mul_div_right i k (by decide),
      Nat.div_eq_of_lt hi, Nat.zero_add, Nat.mul_div_cancel k (by decide)]
  rw [bit, hdiv, Nat.mul_add_mod_of_lt hi]

/-- The inner loop finds the first free block in the free-map block that holds its bit,
and nothing in those before. -/
theorem firstFree_eq {b k : ℕ} (hb : b < s.sb.size) (hbit : s.bit b = false)
    (hmin : ∀ j, j < b → s.bit j = true) (hk : k ≤ b / BPB) :
    firstFree (s.blk (bblock (k * BPB) s.sb)) (k * BPB) s.sb.size =
      if k = b / BPB then some (b % BPB) else none := by
  have hsplit : b / BPB * BPB + b % BPB = b := Nat.div_add_mod' b BPB
  have hmod : b % BPB < BPB := Nat.mod_lt b (by decide)
  rw [firstFree]
  split_ifs with hkb
  · subst hkb
    rw [find?_range_eq_some]
    refine ⟨?_, mem_range.2 (by omega), ?_⟩
    · rw [bit_mul_add _ hmod, hsplit, hbit]
      rfl
    · intro j hj
      rw [bit_mul_add _ (by omega), hmin _ (by omega)]
      rfl
  · rw [find?_eq_none]
    intro j hj
    have hj' := mem_range.1 hj
    have hle : (k + 1) * BPB ≤ b / BPB * BPB := Nat.mul_le_mul_right _ (by omega)
    rw [Nat.succ_mul] at hle
    rw [bit_mul_add _ (by omega), hmin _ (by omega)]
    decide

/-- The outer loop, from the `k`-th free-map block on, where there is a free block. -/
theorem wp_ballocFrom (h : Sound s) (hc : s.Calm) (hroom : s.log.RoomOr E F) {b : ℕ}
    {rest : List ℕ} (hfree : s.free = b :: rest) (hF : bblock b s.sb ∈ F) {Q : ℕ → Vol τ → Prop}
    (hQ : Q b (s.alloc b)) (m k : ℕ) (hk : k ≤ b / BPB) (hm : b / BPB < k + m) :
    (ballocFrom me ((List.range' k m).map (· * BPB))).wp E Q s := by
  obtain ⟨hb, hbit, hmin⟩ := free_eq_cons hfree
  have hmem : b ∈ s.free := hfree ▸ mem_cons_self
  induction m generalizing k with
  | zero => omega
  | succ m ih =>
    have hlt : bblock (k * BPB) s.sb < s.sb.dataStart := by
      apply h.wf.bmap_lt
      have := Nat.div_mul_le_self b BPB
      have := Nat.mul_le_mul_right BPB hk
      omega
    have hheld := hc.lt hlt
    rw [range'_succ, map_cons, ballocFrom]
    simp only [bind_eq, wp_bind, wp_look, wp_read, hheld, true_and, wp_dataOf]
    have hff := firstFree_eq hb hbit hmin hk
    split
    · rename_i bi hbi
      have hbi' := hff.symm.trans hbi
      split_ifs at hbi' with hkb
      · cases hbi'
        subst hkb
        have hsplit : b / BPB * BPB + b % BPB = b := Nat.div_add_mod' b BPB
        have hbb : bblock (b / BPB * BPB) s.sb = bblock b s.sb := by
          rw [Superblock.bblock_eq_iff, Nat.mul_div_cancel _ (by decide)]
        rw [hbb] at hheld ⊢
        apply wp_finish hroom hheld
        rw [hsplit, wp_bind]
        exact wp_bzero (s := s.put (bblock b s.sb) _) (hroom.recorded hF) (hc.free hmem) hQ
    · rename_i hnone
      have hk' : k ≠ b / BPB := by
        rintro rfl
        rw [if_pos rfl] at hff
        cases hff.symm.trans hnone
      simp only [wp_bind, wp_release]
      rw [setHeld_none s me hheld]
      exact ih (k + 1) (by omega) (by omega)

/-- The outer loop where there is none: it ends in a panic. -/
theorem wp_ballocFrom_full (h : Sound s) (hc : s.Calm) (hfree : s.free = []) (hE : ∀ msg, E msg)
    {Q : ℕ → Vol τ → Prop} {bs : List ℕ} (hbs : ∀ b ∈ bs, b < s.sb.size ∧ b % BPB = 0) :
    (ballocFrom me bs).wp E Q s := by
  induction bs with
  | nil => exact hE _
  | cons b bs ih =>
    obtain ⟨hb, hmod⟩ := hbs b mem_cons_self
    have hheld := hc.lt (h.wf.bmap_lt b hb)
    have hnone : firstFree (s.blk (bblock b s.sb)) b s.sb.size = none := by
      rw [firstFree, find?_eq_none]
      intro j hj
      have hj' := mem_range.1 hj
      have hbit : s.bit (b + j) = true := by
        by_contra hne
        have hmem : b + j ∈ s.free := mem_free.2 ⟨by omega, Bool.eq_false_iff.2 hne⟩
        rw [hfree] at hmem
        cases hmem
      have hbk : b / BPB * BPB = b := Nat.div_mul_cancel (Nat.dvd_of_mod_eq_zero hmod)
      have hj'' := bit_mul_add (s := s) (b / BPB) (show j < BPB by omega)
      rw [hbk, hbit] at hj''
      rw [hj'']
      decide
    rw [ballocFrom]
    simp only [bind_eq, wp_bind, wp_look, wp_read, hheld, true_and, wp_dataOf]
    have hnone' : firstFree ((s.setHeld (bblock b s.sb) (some me)).blk (bblock b s.sb)) b
      s.sb.size =
        none := hnone
    rw [hnone']
    simp only [wp_bind, wp_release]
    rw [setHeld_none s me hheld]
    exact ih fun x hx => hbs x (mem_cons_of_mem b hx)

/-- **`balloc` takes the first free block, marks it and zeroes it.** -/
theorem wp_balloc (h : Sound s) (hc : s.Calm) (hroom : s.log.RoomOr E F) (hspare : s.Spare E 1)
    (hF : ∀ b rest, s.free = b :: rest → bblock b s.sb ∈ F) {Q : ℕ → Vol τ → Prop}
    (hQ : ∀ b rest, s.free = b :: rest → Q b (s.alloc b)) : (balloc me).wp E Q s := by
  simp only [balloc, bind_eq, wp_bind, wp_look, bmapStarts]
  cases hfree : s.free with
  | nil =>
    refine wp_ballocFrom_full h hc hfree (hspare.resolve_left (by simp [hfree])) ?_
    simp only [mem_map, mem_range]
    rintro _ ⟨k, hk, rfl⟩
    refine ⟨?_, Nat.mul_mod_left k BPB⟩
    change k < (s.sb.size + 4096 - 1) / 4096 at hk
    change k * 4096 < s.sb.size
    omega
  | cons b rest =>
    have hb := (free_eq_cons hfree).1
    rw [range_eq_range']
    refine wp_ballocFrom h hc hroom hfree (hF b rest hfree) (hQ b rest hfree) _ 0 (Nat.zero_le _) ?_
    change b / 4096 < 0 + (s.sb.size + 4096 - 1) / 4096
    omega

/-! ## The volume after `balloc` -/

theorem Sound.logged (h : Sound s) (b : ℕ) : Sound (s.logged b) :=
  ⟨h.wf, h.super, h.meta_marked, h.refs, h.slots, h.inums⟩

section AllocFacts

variable {b : ℕ}

theorem blk_put_self (b : ℕ) (d : Block) : (s.put b d).blk b = d := blk_setBlk_self b d

theorem blk_put_of_ne {x b : ℕ} (h : x ≠ b) (d : Block) : (s.put b d).blk x = s.blk x :=
  blk_setBlk_of_ne h d

theorem blk_alloc_self (s : Vol τ) (b : ℕ) : (s.alloc b).blk b = Block.zero := blk_put_self b _

theorem blk_alloc_of_ne {x : ℕ} (hb : x ≠ b) (hbb : x ≠ bblock b s.sb) :
    (s.alloc b).blk x = s.blk x := by
  rw [Vol.alloc, blk_put_of_ne hb, blk_put_of_ne hbb]

theorem Sound.refs_alloc (h : Sound s) (hb : b ∈ s.free) : (s.alloc b).refs = s.refs := by
  have hsize := (mem_free.1 hb).1
  have h1 : (s.put (bblock b s.sb) ((s.blk (bblock b s.sb)).setBit (b % BPB))).refs = s.refs :=
    h.refs_setBlk_bblock hsize _
  have h2 : (s.alloc b).refs = (s.put (bblock b s.sb) _).refs :=
    refs_setBlk (s := s.put (bblock b s.sb) _)
      (fun i hi => h.iblock_ne_data (h.free_data hb) hsize hi)
      (fun i => by rw [h1]; exact h.free_unlisted hb _) Block.zero
  rw [h2, h1]

theorem Sound.alloc (h : Sound s) (hb : b ∈ s.free) : Sound (s.alloc b) := by
  have hsize := (mem_free.1 hb).1
  have h1 : Sound (s.put (bblock b s.sb) ((s.blk (bblock b s.sb)).setBit (b % BPB))) :=
    (h.mark hsize).logged _
  have h2 : (s.put (bblock b s.sb) ((s.blk (bblock b s.sb)).setBit (b % BPB))).refs = s.refs :=
    h.refs_setBlk_bblock hsize _
  refine (h1.write (h.free_data hb) hsize (fun i => ?_) Block.zero).logged b
  rw [h2]
  exact h.free_unlisted hb _

theorem Sound.bit_alloc (h : Sound s) (hb : b ∈ s.free) {x : ℕ} (hx : x < s.sb.size) :
    (s.alloc b).bit x = (decide (x = b) || s.bit x) := by
  rw [← bit_mark]
  exact bit_setBlk_of_ne (s := s.put (bblock b s.sb) _) (h.bblock_ne_data (h.free_data hb) hx) _

theorem Sound.marked_alloc (h : Sound s) (hb : b ∈ s.free) {x : ℕ} :
    (s.alloc b).Marked x ↔ x = b ∨ s.Marked x := by
  have hdata := h.free_data hb
  have hsize := (mem_free.1 hb).1
  constructor
  · rintro ⟨h1, h2, h3⟩
    rw [h.bit_alloc hb h2, Bool.or_eq_true, decide_eq_true_eq] at h3
    exact h3.imp_right fun h3 => ⟨h1, h2, h3⟩
  · rintro (rfl | ⟨h1, h2, h3⟩)
    · exact ⟨hdata, hsize, by rw [h.bit_alloc hb hsize, decide_eq_true rfl, Bool.true_or]⟩
    · exact ⟨h1, h2, by rw [h.bit_alloc hb h2, h3, Bool.or_true]⟩

/-- The rest of the free blocks stay free. -/
theorem Sound.free_alloc (h : Sound s) {rest : List ℕ} (hfree : s.free = b :: rest) :
    (s.alloc b).free = rest := by
  have hb : b ∈ s.free := hfree ▸ mem_cons_self
  have hnd := s.nodup_free
  rw [hfree, nodup_cons] at hnd
  calc (s.alloc b).free
      = (List.range s.sb.size).filter fun x => !decide (x = b) && !s.bit x := by
        refine filter_congr fun x hx => ?_
        rw [h.bit_alloc hb (mem_range.1 hx), Bool.not_or]
    _ = s.free.filter fun x => !decide (x = b) := by rw [free, filter_filter]
    _ = rest := by
        rw [hfree, filter_cons_of_neg (by simp), filter_eq_self]
        intro x hx
        have hne : x ≠ b := by
          rintro rfl
          exact hnd.1 hx
        simp [hne]

theorem Sound.disk_alloc (h : Sound s) (hb : b ∈ s.free) {i : ℕ} (hi : i < s.sb.ninodes) :
    (s.alloc b).disk i = s.disk i := by
  have h1 : (s.alloc b).disk i = (s.put (bblock b s.sb) _).disk i :=
    disk_setBlk_of_ne (s := s.put (bblock b s.sb) _)
      (h.iblock_ne_data (h.free_data hb) (mem_free.1 hb).1 hi) _
  rw [h1]
  exact disk_setBlk_of_ne (h.wf.iblock_ne_bblock hi b) _

theorem room_alloc (hroom : s.log.RoomOr E F) (h₁ : bblock b s.sb ∈ F) (h₂ : b ∈ F) :
    (s.alloc b).log.RoomOr E F :=
  (hroom.recorded h₁).recorded h₂

theorem Calm.alloc (hc : s.Calm) (h : Sound s) (hb : b ∈ s.free) : (s.alloc b).Calm :=
  fun x hx => (h.marked_alloc hb).2 (Or.inr (hc x hx))

theorem passed_put (s : Vol τ) (b : ℕ) (d : Block) : (s.put b d).passed = s.passed ++ [b] := rfl

theorem passed_alloc (s : Vol τ) (b : ℕ) :
    (s.alloc b).passed = s.passed ++ [bblock b s.sb, b] := by
  rw [Vol.alloc, passed_put, passed_put, append_assoc]
  rfl

end AllocFacts

end Vol

end Xv6.Fs
