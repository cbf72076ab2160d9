import Xv6.Fs.InodeOps

/-!
# Freeing blocks and inodes

`itrunc` frees a block before it clears the address that lists it, so in between
the volume is not consistent.  The states at the end of each step are: they are
those of clearing the address first and freeing the blocks, listed by nobody, then.

* `Dropped` — some places of one inode list nothing any more, and the blocks they
  listed are free; nothing else has changed.
* `wp_itrunc` — `itrunc` frees exactly the blocks of the inode.
* `wp_ialloc`, `wp_iput` — inodes are taken and given back.
-/

namespace Xv6.Fs

open Lib Prog List

/-- The places that list through address field `j`. -/
def Place.under (j : Fin (NDIRECT + 1)) : Place → Prop
  | .addr i => i = j
  | .entry _ => j = Dinode.indirect

theorem Place.of_clear_under (blk : ℕ → Block) (d : Dinode) {j : Fin (NDIRECT + 1)} {p : Place}
    (hp : p.under j) : p.of blk (d.setAddr j 0) = 0 := by
  have hself : (d.setAddr j 0).addr j = 0 := Dinode.addr_setAddr_self d j (by decide)
  cases p with
  | addr i =>
    cases (show i = j from hp)
    exact hself
  | entry k =>
    cases (show j = Dinode.indirect from hp)
    simp only [Place.of, hself, if_true]

theorem Place.of_clear_of_not_under (blk : ℕ → Block) (d : Dinode) {j : Fin (NDIRECT + 1)}
    {p : Place} (hp : ¬p.under j) : p.of blk (d.setAddr j 0) = p.of blk d := by
  cases p with
  | addr i => exact Dinode.addr_setAddr_of_ne d hp 0
  | entry k =>
    simp only [Place.of, Dinode.addr_setAddr_of_ne d (show Dinode.indirect ≠ j from Ne.symm hp)]

namespace Vol

variable {τ : Type} {s s' t u : Vol τ} {E : String → Prop} {me : τ} {F : Finset ℕ} {ip : Fin NINODE}

/-! ## `bfree` -/

/-- The volume once a block's bit is cleared. -/
def freed (s : Vol τ) (b : ℕ) : Vol τ :=
  s.put (bblock b s.sb) ((s.blk (bblock b s.sb)).clearBit (b % BPB))

theorem bit_freed (s : Vol τ) (b x : ℕ) : (s.freed b).bit x = (!decide (x = b) && s.bit x) :=
  bit_unmark s b x

theorem wp_bfree {b : ℕ} (hsup : Superblock.ofBlock (s.blk 1) = s.sb) (hheld₁ : s.held 1 = none)
    (hheld : s.held (bblock b s.sb) = none) (hbit : s.bit b = true) (hroom : s.log.RoomOr E F)
    {Q : Unit → Vol τ → Prop} (hQ : Q () (s.freed b)) : (bfree me b).wp E Q s := by
  have hread : ∀ R : Unit → Vol τ → Prop, R () s → (readsb me).wp E R s := by
    intro R hR
    simp only [readsb, bind_eq, wp_bind, wp_read, wp_change, wp_release]
    refine ⟨hheld₁, ?_⟩
    change R () { (s.setHeld 1 (some me)).setHeld 1 none with sb := Superblock.ofBlock (s.blk 1) }
    rw [setHeld_none s me hheld₁, hsup]
    exact hR
  simp only [bfree, bind_eq]
  rw [wp_bind]
  refine hread _ ?_
  rw [wp_bind, wp_look, wp_bind, wp_read]
  refine ⟨hheld, ?_⟩
  rw [wp_bind, wp_dataOf]
  have hclear :
    (!((s.setHeld (bblock b s.sb) (some me)).blk (bblock b s.sb)).bit (b % BPB)) = false :=
    congrArg (!·) hbit
  rw [hclear, if_neg Bool.false_ne_true]
  have h := @wp_finish _ _ _ E me _ hroom _ hheld (fun d => d.clearBit (b % BPB)) Prog.ret Q hQ
  rwa [bind_ret] at h

/-- Freeing a data block that nobody lists. -/
theorem Sound.freed (h : Sound s) (ip : Fin NINODE) {b : ℕ} (hb : s.sb.dataStart ≤ b)
    (hs : b < s.sb.size) (hun : ∀ k, s.refs k ≠ b) :
    Framed ip s (s.freed b) ∧ (s.freed b).refs = s.refs := by
  have hrefs : (s.freed b).refs = s.refs := h.refs_setBlk_bblock hs _
  refine ⟨?_, hrefs⟩
  exact
    { sound := (h.unmark hb hs hun).logged _
      sb := rfl
      held := rfl
      file := rfl
      slots := fun _ _ => rfl
      inode := ⟨_, _, rfl⟩
      disk := fun i hi _ => disk_setBlk_of_ne (h.wf.iblock_ne_bblock hi b) _
      others := fun i p _ => congrFun hrefs (i, p)
      blk := fun i p _ _ => blk_put_of_ne (h.refs_ne_bblock hs _) _ }

/-- The volume once the bits of some blocks are cleared. -/
def freedAll (s : Vol τ) : List ℕ → Vol τ
  | [] => s
  | b :: l => (s.freed b).freedAll l

theorem freedAll_append (s : Vol τ) (l l' : List ℕ) :
    s.freedAll (l ++ l') = (s.freedAll l).freedAll l' := by
  induction l generalizing s with
  | nil => rfl
  | cons b l ih => exact ih (s.freed b)

theorem freedAll_frame (s : Vol τ) (l : List ℕ) : (s.freedAll l).sb = s.sb ∧
    (s.freedAll l).held = s.held ∧ (s.freedAll l).inode = s.inode := by
  induction l generalizing s with
  | nil => exact ⟨rfl, rfl, rfl⟩
  | cons b l ih => exact ih (s.freed b)

theorem bit_freedAll (s : Vol τ) (l : List ℕ) (x : ℕ) :
    (s.freedAll l).bit x = (!decide (x ∈ l) && s.bit x) := by
  induction l generalizing s with
  | nil => simp [freedAll]
  | cons b l ih =>
    rw [freedAll, ih, bit_freed]
    by_cases h1 : x = b <;> by_cases h2 : x ∈ l <;> simp [h1, h2]

theorem blk_freedAll (s : Vol τ) {l : List ℕ} {x : ℕ} (hx : ∀ b ∈ l, x ≠ bblock b s.sb) :
    (s.freedAll l).blk x = s.blk x := by
  induction l generalizing s with
  | nil => rfl
  | cons b l ih =>
    rw [freedAll, ih (s.freed b) fun c hc => hx c (mem_cons_of_mem b hc)]
    exact blk_put_of_ne (hx b mem_cons_self) _

/-- Clearing bits and changing an inode in memory do not interfere. -/
theorem freedAll_modDinode (s : Vol τ) (ip : Fin NINODE) (f : Dinode → Dinode) (l : List ℕ) :
    (s.modDinode ip f).freedAll l = (s.freedAll l).modDinode ip f := by
  induction l generalizing s with
  | nil => rfl
  | cons b l ih => exact ih (s.freed b)

theorem freed_modDinode (s : Vol τ) (ip : Fin NINODE) (f : Dinode → Dinode) (l : List ℕ) (a : ℕ) :
    ((s.freedAll l).freed a).modDinode ip f = (s.modDinode ip f).freedAll (l ++ [a]) := by
  rw [freedAll_append, freedAll_modDinode]
  rfl

theorem Sound.freedAll (h : Sound s) (ip : Fin NINODE) {l : List ℕ}
    (hl : ∀ b ∈ l, s.sb.dataStart ≤ b ∧ b < s.sb.size ∧ ∀ k, s.refs k ≠ b) :
    Framed ip s (s.freedAll l) ∧ (s.freedAll l).refs = s.refs := by
  induction l generalizing s with
  | nil => exact ⟨(Grown.refl h ip).framed, rfl⟩
  | cons b l ih =>
    obtain ⟨h1, h2, h3⟩ := hl b mem_cons_self
    obtain ⟨hf, hrefs⟩ := h.freed ip h1 h2 h3
    obtain ⟨hf', hrefs'⟩ := ih hf.sound fun c hc => by
      rw [hrefs]
      exact hl c (mem_cons_of_mem b hc)
    exact ⟨hf.trans hf', hrefs'.trans hrefs⟩

/-! ## Places of one inode given up -/

/-- `t` is `s` with the places `P` of the inode in entry `ip` listing nothing and the
blocks they listed free. -/
structure Dropped (ip : Fin NINODE) (P : Place → Prop) (s t : Vol τ) : Prop where
  /-- Only this file has changed. -/
  framed : Framed ip s t
  /-- The places list nothing. -/
  gone : ∀ p, P p → t.refs (s.num ip, p) = 0
  /-- The others list what they did. -/
  kept : ∀ p, ¬P p → t.refs (s.num ip, p) = s.refs (s.num ip, p)
  /-- Exactly the blocks they listed are free now. -/
  bit : ∀ x, t.bit x = true ↔ s.bit x = true ∧ ∀ p, P p → s.refs (s.num ip, p) = x → x = 0
  /-- Data blocks keep their contents. -/
  data : ∀ x, s.sb.dataStart ≤ x → x < s.sb.size → t.blk x = s.blk x

theorem Dropped.of_zero (h : Sound s) {P : Place → Prop} (hz : ∀ p, P p →
    s.refs (s.num ip, p) = 0) :
    Dropped ip P s s where
  framed := (Grown.refl h ip).framed
  gone := hz
  kept _ _ := rfl
  bit x := by
    refine (and_iff_left fun p hp he => ?_).symm
    rw [← he, hz p hp]
  data _ _ _ := rfl

theorem Dropped.trans {P P' : Place → Prop} (h : Dropped ip P s t) (h' : Dropped ip P' t u) :
    Dropped ip (fun p => P p ∨ P' p) s u where
  framed := h.framed.trans h'.framed
  gone p hp := by
    have hnum := h.framed.num
    by_cases hp' : P' p
    · rw [← hnum]
      exact h'.gone p hp'
    · have hk := h'.kept p hp'
      rw [hnum] at hk
      rw [hk]
      exact h.gone p (hp.resolve_right hp')
  kept p hp := by
    rw [not_or] at hp
    have hk := h'.kept p hp.2
    rw [h.framed.num] at hk
    rw [hk, h.kept p hp.1]
  bit x := by
    rw [h'.bit, h.bit, h.framed.num, and_assoc]
    refine and_congr_right fun _ => ?_
    constructor
    · rintro ⟨h1, h2⟩ p hp he
      by_cases hp1 : P p
      · exact h1 p hp1 he
      · exact h2 p (hp.resolve_left hp1) (by rw [h.kept p hp1, he])
    · intro hall
      refine ⟨fun p hp => hall p (Or.inl hp), fun p hp he => ?_⟩
      by_cases hp1 : P p
      · rw [← he, h.gone p hp1]
      · exact hall p (Or.inr hp) (by rw [← h.kept p hp1, he])
  data x h1 h2 := by
    rw [h'.data x (h.framed.sb ▸ h1) (h.framed.sb ▸ h2), h.data x h1 h2]

/-- Clearing an address and freeing what was listed through it. -/
theorem Sound.dropped (h : Sound s) (hl : s.Loaded ip) (ht : (s.inode ip).d.itype ≠ 0)
    (j : Fin (NDIRECT + 1)) {l : List ℕ}
    (hmem : ∀ b, b ∈ l ↔ b ≠ 0 ∧ ∃ p, Place.under j p ∧ s.refs (s.num ip, p) = b) :
    Dropped ip (Place.under j) s ((s.modDinode ip fun d => d.setAddr j 0).freedAll l) := by
  have hs₁ := h.clearAddr hl j
  have hself : ∀ p, (s.modDinode ip fun d => d.setAddr j 0).refs (s.num ip, p) =
      p.of s.blk ((s.inode ip).d.setAddr j 0) := fun p => by
    rw [h.refs_modDinode_self hl]
    exact if_pos ht
  have hgone : ∀ p, Place.under j p →
      (s.modDinode ip fun d => d.setAddr j 0).refs (s.num ip, p) = 0 := fun p hp => by
    rw [hself, Place.of_clear_under _ _ hp]
  have hkept : ∀ p, ¬Place.under j p →
      (s.modDinode ip fun d => d.setAddr j 0).refs (s.num ip, p) = s.refs (s.num ip, p) :=
    fun p hp => by rw [hself, Place.of_clear_of_not_under _ _ hp, h.refs_num hl ht]
  have hfr₁ : Framed ip s (s.modDinode ip fun d => d.setAddr j 0) :=
    { sound := hs₁
      sb := rfl
      held := rfl
      file := rfl
      slots := fun jp hj => inode_modDinode_of_ne hj _
      inode := ⟨_, _, inode_modDinode_self ip _⟩
      disk := fun _ _ _ => rfl
      others := fun i p hi => refs_modDinode_of_ne hi _ p
      blk := fun _ _ _ _ => rfl }
  -- nobody lists the blocks any more: they were listed once, under `j`
  have hfree : ∀ b ∈ l, s.sb.dataStart ≤ b ∧ b < s.sb.size ∧
      ∀ k, (s.modDinode ip fun d => d.setAddr j 0).refs k ≠ b := by
    intro b hb
    obtain ⟨h0, p, hp, he⟩ := (hmem b).1 hb
    have hgood := h.refs.good (s.num ip, p) (by rw [he]; exact h0)
    rw [he] at hgood
    refine ⟨hgood.1, hgood.2.1, ?_⟩
    rintro ⟨i, q⟩ hq
    by_cases hi : i = s.num ip
    · subst hi
      by_cases hqj : Place.under j q
      · rw [hgone q hqj] at hq
        exact h0 hq.symm
      · rw [hkept q hqj] at hq
        have := h.refs.inj _ _ (hq.trans he.symm) (by rw [hq]; exact h0)
        cases this
        exact hqj hp
    · rw [refs_modDinode_of_ne hi] at hq
      have := h.refs.inj _ _ (hq.trans he.symm) (by rw [hq]; exact h0)
      cases this
      exact hi rfl
  obtain ⟨hfr₂, hrefs₂⟩ := hs₁.freedAll ip hfree
  refine ⟨hfr₁.trans hfr₂, fun p hp => by rw [hrefs₂]; exact hgone p hp,
    fun p hp => by rw [hrefs₂]; exact hkept p hp, fun x => ?_, fun x hx hs => ?_⟩
  · rw [bit_freedAll, Bool.and_eq_true, Bool.not_eq_true', decide_eq_false_iff_not, hmem, and_comm]
    refine and_congr_right fun _ => ?_
    constructor
    · intro hn p hp he
      by_contra h0
      exact hn ⟨h0, p, hp, he⟩
    · rintro hall ⟨h0, p, hp, he⟩
      exact h0 (hall p hp he)
  · refine blk_freedAll _ fun b hb => ?_
    exact (h.bblock_ne_data hx (hfree b hb).2.1).symm

/-! ## `itrunc` -/

/-- The blocks of inode `i` have their free-map blocks in `F`. -/
def MapsInto (s : Vol τ) (i : ℕ) (F : Finset ℕ) : Prop :=
  ∀ p, s.refs (i, p) ≠ 0 → bblock (s.refs (i, p)) s.sb ∈ F

theorem Dropped.mapsInto {P : Place → Prop} (h : Dropped ip P s t) (hF : s.MapsInto (s.num ip) F) :
    t.MapsInto (t.num ip) F := by
  intro p hp
  rw [h.framed.num] at hp ⊢
  by_cases hP : P p
  · exact absurd (h.gone p hP) hp
  · rw [h.kept p hP] at hp ⊢
    rw [h.framed.sb]
    exact hF p hp

/-- The body of the loop over the direct addresses. -/
theorem wp_truncDirect (h : Sound s) (hl : s.Loaded ip) (ht : (s.inode ip).d.itype ≠ 0)
    (hidle : ∀ x, s.held x = none) {j : Fin (NDIRECT + 1)} (hj : j ≠ Dinode.indirect)
    (hroom : s.log.RoomOr E F) (hF : s.MapsInto (s.num ip) F) :
    (truncDirect me ip j).wp E (fun _ t => Dropped ip (Place.under j) s t ∧
      t.log.RoomOr E F) s := by
  have haddr : s.refs (s.num ip, .addr j) = (s.inode ip).d.addr j := h.refs_num hl ht _
  have hunder : ∀ p, Place.under j p → p = .addr j := by
    rintro (i | k) hp
    · exact congrArg Place.addr hp
    · exact absurd hp hj
  simp only [truncDirect, bind_eq, wp_bind, wp_look]
  split_ifs with h0
  · refine ⟨Dropped.of_zero h fun p hp => ?_, hroom⟩
    rw [hunder p hp, haddr, h0]
  · rw [wp_bind]
    have hm := h.refs.good (s.num ip, .addr j) (by rw [haddr]; exact h0)
    have hbF := hF (.addr j) (by rw [haddr]; exact h0)
    rw [haddr] at hm hbF
    refine wp_bfree h.super (hidle _) (hidle _) hm.2.2 hroom ?_
    rw [wp_change]
    refine ⟨h.dropped hl ht j (l := [(s.inode ip).d.addr j]) fun b => ?_, hroom.recorded hbF⟩
    rw [mem_singleton]
    constructor
    · rintro rfl
      exact ⟨h0, .addr j, rfl, haddr⟩
    · rintro ⟨-, p, hp, he⟩
      rw [← he, hunder p hp, haddr]

/-- The blocks listed by the entries `ks` of an indirect block. -/
def entriesOf (d : Block) (ks : List ℕ) : List ℕ := (ks.map d.word).filter (· ≠ 0)

theorem mem_entriesOf {d : Block} {ks : List ℕ} {b : ℕ} :
    b ∈ entriesOf d ks ↔ b ≠ 0 ∧ ∃ k ∈ ks, d.word k = b := by
  simp [entriesOf, and_comm]

theorem entriesOf_append (d : Block) (ks : List ℕ) (k : ℕ) :
    entriesOf d (ks ++ [k]) = entriesOf d ks ++ if d.word k = 0 then [] else [d.word k] := by
  rw [entriesOf, map_append, filter_append, entriesOf]
  by_cases h : d.word k = 0 <;> simp [h]

section Indirect

variable {a : ℕ} (h : Sound s) (hl : s.Loaded ip) (ht : (s.inode ip).d.itype ≠ 0)
  (ha : (s.inode ip).d.addr Dinode.indirect = a) (ha0 : a ≠ 0)

include h hl ht ha ha0

theorem Sound.refs_entry (k : Fin NINDIRECT) :
    s.refs (s.num ip, .entry k) = (s.blk a).word k := by
  rw [h.refs_num hl ht, Place.of, ha, if_neg ha0]

/-- The blocks an indirect block lists are marked data blocks, none of them twice. -/
theorem Sound.marked_entriesOf {ks : List ℕ} (hks : ∀ k ∈ ks, k < NINDIRECT) {b : ℕ}
    (hb : b ∈ entriesOf (s.blk a) ks) :
    s.Marked b ∧ b ≠ a ∧ ∀ k, k < NINDIRECT → (s.blk a).word k = b → k ∈ ks := by
  obtain ⟨h0, k, hk, he⟩ := mem_entriesOf.1 hb
  have hr := h.refs_entry hl ht ha ha0 ⟨k, hks k hk⟩
  rw [he] at hr
  refine ⟨?_, ?_, fun k' hk' he' => ?_⟩
  · have := h.refs.good _ (hr.symm ▸ h0)
    rwa [hr] at this
  · rintro rfl
    have := h.refs.inj _ _ (hr.trans (h.refs_indirect hl ht ha).symm) (hr.symm ▸ h0)
    cases this
  · have hr' := h.refs_entry hl ht ha ha0 ⟨k', hk'⟩
    have := h.refs.inj _ _ (hr'.trans (he'.trans hr.symm)) (by rw [hr', he']; exact h0)
    cases this
    exact hk

/-- While the entries are freed, only the free map changes. -/
theorem Sound.freedAll_entries {ks : List ℕ} (hks : ∀ k ∈ ks, k < NINDIRECT) {x : ℕ}
    (hx : x = 1 ∨ s.sb.dataStart ≤ x) :
    (s.freedAll (entriesOf (s.blk a) ks)).blk x = s.blk x := by
  refine blk_freedAll _ fun b hb => ?_
  obtain ⟨-, hsize, -⟩ := (h.marked_entriesOf hl ht ha ha0 hks hb).1
  rcases hx with rfl | hx
  · exact Nat.ne_of_lt (h.one_lt_bblock b)
  · exact (h.bblock_ne_data hx hsize).symm

/-- The loop over the entries of the indirect block, its buffer locked. -/
theorem wp_truncEntries (hidle : ∀ x, s.held x = none) (hroom : s.log.RoomOr E F)
    (hF : s.MapsInto (s.num ip) F) :
    (Prog.forEach (List.range NINDIRECT) fun j => do
      let b ← .look fun s => (s.blk a).word j
      if b = 0 then pure () else bfree me b).wp E
      (fun _ t => t = (s.freedAll (entriesOf (s.blk a) (List.range NINDIRECT))).setHeld a
        (some me) ∧
        t.log.RoomOr E F) (s.setHeld a (some me)) := by
  obtain ⟨hdata, hsize, -⟩ := h.marked_indirect hl ht ha ha0
  refine wp_mono (wp_forEach (I := fun rest t => ∃ done,
    done ++ rest = List.range NINDIRECT ∧
    t = (s.freedAll (entriesOf (s.blk a) done)).setHeld a (some me) ∧ t.log.RoomOr E F)
    ⟨[], rfl, rfl, hroom⟩ ?_) ?_
  · rintro k rest _ ⟨done, hdone, rfl, hroom'⟩
    have hlt : ∀ k' ∈ done ++ [k], k' < NINDIRECT := fun k' hk' => by
      rw [← mem_range, ← hdone, append_cons, mem_append]
      exact .inl hk'
    have hnot : k ∉ done := by
      have hnd := nodup_range (n := NINDIRECT)
      rw [← hdone, nodup_append] at hnd
      exact fun hk => hnd.2.2 k hk k mem_cons_self rfl
    have hltd : ∀ k' ∈ done, k' < NINDIRECT := fun k' hk' =>
      hlt k' (mem_append_left _ hk')
    have hk : k < NINDIRECT := hlt k (by simp)
    obtain ⟨hfsb, hfheld, -⟩ := freedAll_frame s (entriesOf (s.blk a) done)
    have hword : ((s.freedAll (entriesOf (s.blk a) done)).blk a).word k = (s.blk a).word k := by
      rw [h.freedAll_entries hl ht ha ha0 hltd (Or.inr hdata)]
    have hnext : done ++ [k] ++ rest = List.range NINDIRECT := by
      rw [← hdone, append_assoc]
      rfl
    rw [bind_eq, wp_bind, wp_look]
    change (if ((s.freedAll (entriesOf (s.blk a) done)).blk a).word k = 0 then Prog.ret () else
      bfree me (((s.freedAll (entriesOf (s.blk a) done)).blk a).word k)).wp E _ _
    rw [hword]
    have happ := entriesOf_append (s.blk a) done k
    split_ifs with h0
    · refine ⟨done ++ [k], hnext, ?_, hroom'⟩
      rw [happ, if_pos h0, List.append_nil]
    · have hmem : (s.blk a).word k ∈ entriesOf (s.blk a) (done ++ [k]) :=
        mem_entriesOf.2 ⟨h0, k, by simp, rfl⟩
      obtain ⟨⟨hbd, hbs, hbit⟩, -, -⟩ := h.marked_entriesOf hl ht ha ha0 hlt hmem
      have hfresh : (s.blk a).word k ∉ entriesOf (s.blk a) done := fun hin =>
        hnot ((h.marked_entriesOf hl ht ha ha0 hltd hin).2.2 k hk rfl)
      have hnone : ∀ x, x ≠ a → ((s.freedAll (entriesOf (s.blk a) done)).setHeld a
          (some me)).held x = none := fun x hx => by
        change Function.update (s.freedAll _).held a (some me) x = none
        rw [Function.update_of_ne hx, hfheld]
        exact hidle x
      have hbF := hF (.entry ⟨k, hk⟩) (by
        rw [h.refs_entry hl ht ha ha0]
        exact h0)
      rw [h.refs_entry hl ht ha ha0] at hbF
      refine wp_bfree ?_ (hnone 1 ?_) (hnone _ ?_) ?_ hroom' ⟨done ++ [k], hnext, ?_, ?_⟩
      · change Superblock.ofBlock ((s.freedAll _).blk 1) = (s.freedAll _).sb
        rw [h.freedAll_entries hl ht ha ha0 hltd (Or.inl rfl), hfsb]
        exact h.super
      · exact Nat.ne_of_lt (h.one_lt_data hdata hsize)
      · change bblock _ (s.freedAll _).sb ≠ a
        rw [hfsb]
        exact h.bblock_ne_data hdata hbs
      · change (s.freedAll _).bit _ = true
        rw [bit_freedAll, decide_eq_false hfresh, hbit]
        rfl
      · rw [happ, if_neg h0, freedAll_append]
        rfl
      · refine hroom'.recorded ?_
        change bblock _ (s.freedAll _).sb ∈ F
        rw [hfsb]
        exact hbF
  · rintro - t ⟨done, hdone, rfl, hroom'⟩
    rw [List.append_nil] at hdone
    subst hdone
    exact ⟨rfl, hroom'⟩

end Indirect

/-- The part of `itrunc` about the indirect block. -/
theorem wp_truncIndirect (h : Sound s) (hl : s.Loaded ip) (ht : (s.inode ip).d.itype ≠ 0)
    (hidle : ∀ x, s.held x = none) (hroom : s.log.RoomOr E F) (hF : s.MapsInto (s.num ip) F) :
    (truncIndirect me ip).wp E
      (fun _ t => Dropped ip (Place.under Dinode.indirect) s t ∧ t.log.RoomOr E F) s := by
  have hself := h.refs_indirect hl ht rfl
  simp only [truncIndirect, bind_eq, wp_bind, wp_look]
  generalize ha : (s.inode ip).d.addr Dinode.indirect = a at hself ⊢
  by_cases h0 : a = 0
  · rw [if_pos h0]
    refine ⟨Dropped.of_zero h fun p hp => ?_, hroom⟩
    cases p with
    | addr i =>
      cases (show i = Dinode.indirect from hp)
      rw [hself, h0]
    | entry k =>
      rw [h.refs_num hl ht, Place.of, ha, if_pos h0]
  · obtain ⟨hdata, hsize, hbit⟩ := h.marked_indirect hl ht ha h0
    have hlt : ∀ k ∈ List.range NINDIRECT, k < NINDIRECT := fun k => mem_range.1
    rw [if_neg h0, wp_bind, wp_read]
    refine ⟨hidle a, ?_⟩
    rw [wp_bind]
    refine wp_mono (wp_truncEntries h hl ht ha h0 hidle hroom hF) ?_
    rintro - _ ⟨rfl, hroom'⟩
    have hfresh : a ∉ entriesOf (s.blk a) (List.range NINDIRECT) := fun hin =>
      (h.marked_entriesOf hl ht ha h0 hlt hin).2.1 rfl
    have hone := h.freedAll_entries hl ht ha h0 hlt (Or.inl rfl)
    have hmem : ∀ b, b ∈ entriesOf (s.blk a) (List.range NINDIRECT) ↔
        b ≠ 0 ∧ ∃ k : Fin NINDIRECT, (s.blk a).word k = b := fun b => by
      rw [mem_entriesOf]
      refine and_congr_right fun _ => ⟨?_, ?_⟩
      · rintro ⟨k, hk, he⟩
        exact ⟨⟨k, hlt k hk⟩, he⟩
      · rintro ⟨k, he⟩
        exact ⟨k, mem_range.2 k.isLt, he⟩
    generalize entriesOf (s.blk a) (List.range NINDIRECT) = l at hroom' hfresh hone hmem ⊢
    obtain ⟨hfsb, hfheld, -⟩ := freedAll_frame s l
    have hnone : ∀ x, (s.freedAll l).held x = none := fun x => by
      rw [hfheld]
      exact hidle x
    rw [wp_bind, wp_release, setHeld_none _ _ (hnone a), wp_bind]
    refine wp_bfree ?_ (hnone _) (hnone _) ?_ hroom' ?_
    · rw [hone, hfsb]
      exact h.super
    · rw [bit_freedAll, decide_eq_false hfresh, hbit]
      rfl
    · rw [wp_change]
      constructor
      · rw [freed_modDinode]
        refine h.dropped hl ht _ fun b => ?_
        rw [mem_append, mem_singleton, hmem]
        constructor
        · rintro (⟨hb0, k, rfl⟩ | rfl)
          · exact ⟨hb0, .entry k, rfl, h.refs_entry hl ht ha h0 k⟩
          · exact ⟨h0, .addr Dinode.indirect, rfl, hself⟩
        · rintro ⟨hb0, p, hp, rfl⟩
          cases p with
          | addr i =>
            cases (show i = Dinode.indirect from hp)
            exact .inr hself
          | entry k => exact .inl ⟨hb0, k, (h.refs_entry hl ht ha h0 k).symm⟩
      · refine hroom'.recorded ?_
        have hbF := hF (.addr Dinode.indirect) (by rw [hself]; exact h0)
        rw [hself] at hbF
        rw [hfsb]
        exact hbF

/-- The loop over the direct addresses. -/
theorem wp_truncDirects (h : Sound s) (hl : s.Loaded ip) (ht : (s.inode ip).d.itype ≠ 0)
    (hidle : ∀ x, s.held x = none) (hroom : s.log.RoomOr E F) (hF : s.MapsInto (s.num ip) F) :
    (Prog.forEach (List.finRange NDIRECT) fun j => truncDirect me ip j.castSucc).wp E
      (fun _ t => Dropped ip (fun p => ∃ j : Fin NDIRECT, p = .addr j.castSucc) s t ∧
        t.log.RoomOr E F) s := by
  -- the places dropped so far are those of the addresses not to come
  refine wp_mono (wp_forEach (I := fun rest t => rest.Nodup ∧
    Dropped ip (fun p => ∃ j : Fin NDIRECT, j ∉ rest ∧ p = .addr j.castSucc) s t ∧ t.log.RoomOr E F)
    ⟨nodup_finRange _, Dropped.of_zero h ?_, hroom⟩ ?_) ?_
  · rintro p ⟨j, hj, -⟩
    exact absurd (mem_finRange j) hj
  · rintro j rest t ⟨hnd, hd, hroom'⟩
    have hf := hd.framed
    rw [nodup_cons] at hnd
    refine wp_mono (wp_truncDirect hf.sound (hf.loaded hl) (hf.itype ▸ ht)
      (fun x => by rw [hf.held]; exact hidle x) (Fin.castSucc_lt_last j).ne hroom'
      (hd.mapsInto hF)) ?_
    rintro - u ⟨hu, hroom''⟩
    refine ⟨hnd.2, ?_, hroom''⟩
    have hP : (fun p => ∃ i : Fin NDIRECT, i ∉ rest ∧ p = Place.addr i.castSucc) =
        fun p => (∃ i : Fin NDIRECT, i ∉ j :: rest ∧ p = Place.addr i.castSucc) ∨
          Place.under j.castSucc p := by
      funext p
      refine propext ⟨?_, ?_⟩
      · rintro ⟨i, hi, rfl⟩
        by_cases hij : i = j
        · exact .inr (congrArg Fin.castSucc hij)
        · exact .inl ⟨i, by simp [hij, hi], rfl⟩
      · rintro (⟨i, hi, rfl⟩ | hp)
        · exact ⟨i, fun hin => hi (mem_cons_of_mem j hin), rfl⟩
        · cases p with
          | addr i => exact ⟨j, hnd.1, congrArg Place.addr hp⟩
          | entry k => exact absurd hp (Fin.castSucc_lt_last j).ne
    rw [hP]
    exact hd.trans hu
  · rintro - t ⟨-, hd, hroom'⟩
    refine ⟨?_, hroom'⟩
    simpa using hd

/-- What `itrunc` has done when it returns. -/
structure Truncated (ip : Fin NINODE) (s s' : Vol τ) : Prop where
  /-- Only this file has changed. -/
  framed : Framed ip s s'
  /-- The inode lists nothing. -/
  none : ∀ p, s'.refs (s.num ip, p) = 0
  /-- The file is empty. -/
  size : (s'.inode ip).d.size = 0
  /-- Exactly the blocks it listed are free now. -/
  bit : ∀ x, s'.bit x = true ↔ s.bit x = true ∧ ∀ p, s.refs (s.num ip, p) = x → x = 0
  /-- The copy on disk follows. -/
  disk : s'.disk (s.num ip) = (s'.inode ip).d

/-- **`itrunc` frees the blocks of its inode, and no others.** -/
theorem wp_itrunc (h : Sound s) (hl : s.Loaded ip) (ht : (s.inode ip).d.itype ≠ 0)
    (hidle : ∀ x, s.held x = none) (hroom : s.log.RoomOr E F) (hF : s.MapsInto (s.num ip) F)
    (hib : iblock (s.num ip) s.sb ∈ F) :
    (itrunc me ip).wp E (fun _ s' => Truncated ip s s' ∧ s'.log.RoomOr E F) s := by
  simp only [itrunc, bind_eq, wp_bind]
  refine wp_mono (wp_truncDirects h hl ht hidle hroom hF) ?_
  rintro - t ⟨hd, hroom₁⟩
  have hf := hd.framed
  refine wp_mono (wp_truncIndirect hf.sound (hf.loaded hl) (hf.itype ▸ ht)
    (fun x => by rw [hf.held]; exact hidle x) hroom₁ (hd.mapsInto hF)) ?_
  rintro - u ⟨hu, hroom₂⟩
  have hall := hd.trans hu
  have hf₂ := hall.framed
  have hl₂ := hf₂.loaded hl
  obtain ⟨hf₃, hrefs₃⟩ := hf₂.sound.resized hl₂ 0
  have hl₃ := hf₃.loaded hl₂
  obtain ⟨hf₄, hrefs₄, -, hdisk₄, -⟩ := hf₃.sound.updated hl₃
  have hnum : (u.modDinode ip fun d => { d with size := 0 }).num ip = s.num ip := by
    rw [hf₃.num, hf₂.num]
  have hplace :
      ∀ p, (∃ j : Fin NDIRECT, p = Place.addr j.castSucc) ∨ Place.under Dinode.indirect p := by
    rintro (i | k)
    · rcases Fin.eq_castSucc_or_eq_last i with ⟨j, rfl⟩ | rfl
      · exact .inl ⟨j, rfl⟩
      · exact .inr rfl
    · exact .inr rfl
  rw [wp_change]
  refine wp_iupdate (s := u.modDinode ip fun d => { d with size := 0 }) hroom₂ ?_
    ⟨⟨(hf₂.trans hf₃).trans hf₄, fun p => ?_, ?_, fun x => ?_, ?_⟩, ?_⟩
  · change u.held _ = none
    rw [hf₂.held]
    exact hidle _
  · rw [hrefs₄, hrefs₃]
    exact hall.gone p (hplace p)
  · change ((u.modDinode ip fun d => { d with size := 0 }).inode ip).d.size = 0
    rw [inode_modDinode_self]
  · have hbit : ((u.modDinode ip fun d => { d with size := 0 }).updated ip).bit x = u.bit x := by
      refine bit_setBlk_of_ne ?_ _
      exact (hf₃.sound.wf.iblock_ne_bblock (hf₃.sound.inums ip hl₃.1) x).symm
    rw [hbit, hall.bit]
    exact and_congr_right fun _ => ⟨fun hp p => hp p (hplace p), fun hp p _ => hp p⟩
  · rw [hnum] at hdisk₄
    exact hdisk₄
  · refine hroom₂.recorded ?_
    change iblock ((u.modDinode ip fun d => { d with size := 0 }).num ip) u.sb ∈ F
    rw [hnum, hf₂.sb]
    exact hib

/-! ## `ialloc` -/

/-- The volume once `ialloc` has claimed inode `i`. -/
def claimed (s : Vol τ) (i : ℕ) (itype : UInt16) : Vol τ :=
  (s.stored i { Dinode.zero with itype := itype }).logged (iblock i s.sb)

theorem wp_iallocFrom (hidle : ∀ x, s.held x = none) (hroom : s.log.RoomOr E F) (itype : UInt16)
    {is : List ℕ} (hfree : (∃ i ∈ is, (s.disk i).itype = 0) ∨ ∀ msg, E msg)
    (hslot : (∃ jp, (s.inode jp).ref = 0) ∨ ∀ msg, E msg) {Q : Fin NINODE → Vol τ → Prop}
    (hQ : ∀ i ∈ is, (s.disk i).itype = 0 → ∀ ip s', Got i ip (s.claimed i itype) s' → Q ip s') :
    (iallocFrom me itype is).wp E Q s := by
  induction is with
  | nil =>
    refine hfree.resolve_left ?_ _
    rintro ⟨i, hi, -⟩
    exact absurd hi not_mem_nil
  | cons i is ih =>
    simp only [iallocFrom, bind_eq]
    rw [wp_bind, wp_look, wp_bind, wp_read]
    refine ⟨hidle _, ?_⟩
    rw [wp_bind, wp_dataOf]
    change (if (s.disk i).itype = 0 then _ else _ : Prog (Vol τ) (Fin NINODE)).wp E Q _
    split_ifs with h0
    · refine wp_finish (k := fun _ => iget i) hroom (hidle _) _ ?_
      exact wp_iget (s := s.claimed i itype) i (Or.inr hslot) (hQ i mem_cons_self h0)
    · rw [wp_bind, wp_release, setHeld_none _ _ (hidle _)]
      refine ih (hfree.imp_left ?_) fun j hj => hQ j (mem_cons_of_mem i hj)
      rintro ⟨j, hj, hj0⟩
      rcases mem_cons.1 hj with rfl | hj
      · exact absurd hj0 h0
      · exact ⟨j, hj, hj0⟩

/-- **`ialloc` claims an inode that is free on disk.** -/
theorem wp_ialloc (hidle : ∀ x, s.held x = none) (hroom : s.log.RoomOr E F) (itype : UInt16)
    (hfree : (∃ i, 0 < i ∧ i < s.sb.ninodes ∧ (s.disk i).itype = 0) ∨ ∀ msg, E msg)
    (hslot : (∃ jp, (s.inode jp).ref = 0) ∨ ∀ msg, E msg) {Q : Fin NINODE → Vol τ → Prop}
    (hQ : ∀ i, 0 < i → i < s.sb.ninodes → (s.disk i).itype = 0 →
      ∀ ip s', Got i ip (s.claimed i itype) s' → Q ip s') : (ialloc me itype).wp E Q s := by
  have hmem : ∀ i, i ∈ List.range' 1 (s.sb.ninodes - 1) ↔ 0 < i ∧ i < s.sb.ninodes := fun i => by
    rw [mem_range'_1]
    omega
  simp only [ialloc, bind_eq, wp_bind, wp_look]
  refine wp_iallocFrom hidle hroom itype (hfree.imp_left ?_) hslot fun i hi =>
    hQ i ((hmem i).1 hi).1 ((hmem i).1 hi).2
  rintro ⟨i, h1, h2, h3⟩
  exact ⟨i, (hmem i).2 ⟨h1, h2⟩, h3⟩

/-! ## `iput` -/

/-- The volume once `iput` has written the freed inode back and dropped the entry. -/
def disposed (s : Vol τ) (ip : Fin NINODE) : Vol τ :=
  ((s.modDinode ip fun d => { d with itype := 0 }).updated ip).modInode ip fun x =>
    { x with valid := false, ref := x.ref - 1 }

/-- **`iput` drops a reference, or frees the inode with its blocks.** -/
theorem wp_iput (h : Sound s) (hr : 0 < (s.inode ip).ref)
    (ht : (s.inode ip).valid = true → (s.inode ip).d.itype ≠ 0) (hidle : ∀ x, s.held x = none)
    (hroom : s.log.RoomOr E F) (hF : s.MapsInto (s.num ip) F) (hib : iblock (s.num ip) s.sb ∈ F)
    {Q : Unit → Vol τ → Prop}
    (hdrop : ¬((s.inode ip).ref = 1 ∧ (s.inode ip).valid = true ∧ (s.inode ip).d.nlink = 0) →
      Q () (s.modInode ip fun x => { x with ref := x.ref - 1 }))
    (hfree : (s.inode ip).ref = 1 → s.Loaded ip → (s.inode ip).d.nlink = 0 → ∀ t,
      Truncated ip s t → Q () (t.disposed ip)) : (iput me ip).wp E Q s := by
  simp only [iput, bind_eq, wp_bind, wp_critical, iputSection]
  by_cases hlast : (s.inode ip).ref = 1 ∧ (s.inode ip).valid = true ∧ (s.inode ip).d.nlink = 0
  · refine .inl ⟨true, s, if_pos hlast, ?_⟩
    have hl : s.Loaded ip := ⟨hr, hlast.2.1⟩
    rw [if_pos rfl, wp_bind]
    refine wp_mono (wp_itrunc h hl (ht hl.2) hidle hroom hF hib) ?_
    rintro - t ⟨htr, hroom'⟩
    rw [wp_bind, wp_change, wp_bind]
    refine wp_iupdate (s := t.modDinode ip fun d => { d with itype := 0 }) hroom' ?_ ?_
    · change t.held _ = none
      rw [htr.framed.held]
      exact hidle _
    · rw [wp_change]
      exact hfree hlast.1 hl hlast.2.2 t htr
  · exact .inl ⟨false, _, if_neg hlast, hdrop hlast⟩

end Vol

end Xv6.Fs
