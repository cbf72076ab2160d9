import Xv6.Fs.InodeOps

/-!
# The transactions of `filewrite`

`begin_op` reserves `MAXOPBLOCKS` log blocks for every transaction.  `filewrite`
cuts a write into transactions of `maxChunk` bytes each; this file counts the
blocks one of them passes to `log_write`.

* `card_writeSet` — how many distinct blocks `writei` logs: the blocks of the
  range, the free-map blocks of those it allocates, the indirect block if it gets
  an entry, and the inode's block if the file grows.
* `wp_writeSection` — a transaction of `filewrite` logs exactly these.
-/

namespace Xv6.Fs

open Lib Prog List

namespace Vol

variable {τ : Type} {s s' : Vol τ} {me : τ} {F : Finset ℕ} {ip : Fin NINODE}

/-! ## Counting blocks -/

/-- The free-map blocks of the blocks that mapping the indices `K` of inode `i` allocates. -/
def freeMapBlocks (s : Vol τ) (i : ℕ) (K : List ℕ) : Finset ℕ :=
  (s.allocated i K).toFinset.image (bblock · s.sb)

theorem touched_eq (s : Vol τ) (i : ℕ) (K : List ℕ) : s.touched i K =
    (s.allocated i K).toFinset ∪ s.freeMapBlocks i K ∪
      if s.AddsEntry i K ∧ s.indirectOf i ≠ 0 then {s.indirectOf i} else ∅ := rfl

/-- How many distinct blocks a write of `n` bytes at `off` of inode `i` logs. -/
def cost (s : Vol τ) (i off n : ℕ) : ℕ :=
  (span off n).length + (s.freeMapBlocks i (span off n)).card +
    (if s.AddsEntry i (span off n) then 1 else 0) +
    if 0 < n ∧ (s.dinode i).size.toNat < off + n then 1 else 0

section Card

variable {i : ℕ} {K : List ℕ}

theorem allocated_subset_free (s : Vol τ) (i : ℕ) (K : List ℕ) : s.allocated i K ⊆ s.free :=
  take_subset _ _

theorem card_allocated (hfree : s.newBlocks i K ≤ s.free.length) :
    (s.allocated i K).toFinset.card = s.newBlocks i K := by
  rw [allocated, toFinset_card_of_nodup (s.nodup_free.sublist (take_sublist _ _)),
    length_take, Nat.min_eq_left hfree]

/-- The mapped blocks among those at the indices `K` are as many as the mapped indices. -/
theorem Sound.card_mapped (h : Sound s) (hK : K.Nodup) :
    ((K.map (s.blockAt i)).toFinset.erase 0).card = K.countP fun k => ¬s.blockAt i k = 0 := by
  have himage : (K.map (s.blockAt i)).toFinset.erase 0 =
      (K.filter fun k => ¬s.blockAt i k = 0).toFinset.image (s.blockAt i) := by
    ext x
    simp only [Finset.mem_erase, mem_toFinset, mem_map, Finset.mem_image,
      mem_filter, decide_eq_true_eq]
    constructor
    · rintro ⟨h0, k, hk, rfl⟩
      exact ⟨k, ⟨hk, h0⟩, rfl⟩
    · rintro ⟨k, ⟨hk, h0⟩, rfl⟩
      exact ⟨h0, k, hk, rfl⟩
  rw [himage, Finset.card_image_of_injOn, toFinset_card_of_nodup (hK.filter _),
    countP_eq_length_filter]
  intro k hk k' hk' he
  simp only [Finset.mem_coe, mem_toFinset, mem_filter, decide_eq_true_eq] at hk hk'
  cases hp : Place.nth k with
  | none => exact absurd (blockAt_of_none hp i) hk.2
  | some p =>
    cases hp' : Place.nth k' with
    | none => exact absurd (blockAt_of_none hp' i) hk'.2
    | some p' =>
      rw [blockAt_eq_refs hp] at he hk
      rw [blockAt_eq_refs hp'] at he
      have hpp : p = p' := congrArg Prod.snd (h.refs.inj _ _ he hk.2)
      exact Place.nth_inj hp (hpp ▸ hp')

/-- Blocks of a file are listed, and not as the indirect block. -/
theorem refs_of_mem_mapped {x : ℕ} (hx : x ∈ (K.map (s.blockAt i)).toFinset.erase 0) :
    x ≠ 0 ∧ ∃ p, p ≠ .addr Dinode.indirect ∧ s.refs (i, p) = x := by
  simp only [Finset.mem_erase, mem_toFinset, mem_map] at hx
  obtain ⟨h0, k, -, rfl⟩ := hx
  cases hp : Place.nth k with
  | none => exact absurd (blockAt_of_none hp i) h0
  | some p =>
    refine ⟨h0, p, ?_, (blockAt_eq_refs hp i).symm⟩
    rintro rfl
    exact Place.nth_ne_indirect k hp

/-- Free-map blocks lie in the free map. -/
theorem Sound.mem_freeMapBlocks (h : Sound s) {x : ℕ} (hx : x ∈ s.freeMapBlocks i K) :
    s.sb.bmapstart ≤ x ∧ x < s.sb.dataStart := by
  simp only [freeMapBlocks, Finset.mem_image, mem_toFinset] at hx
  obtain ⟨b, hb, rfl⟩ := hx
  exact ⟨Superblock.le_bblock b s.sb,
    h.wf.bmap_lt b (mem_free.1 (allocated_subset_free s i K hb)).1⟩

/-- Without an indirect block there are no blocks past the direct ones. -/
theorem blockAt_of_indirectOf {k : ℕ} (h : s.indirectOf i = 0) (hk : NDIRECT ≤ k) :
    s.blockAt i k = 0 := by
  rw [blockAt, Place.nth, dif_neg (Nat.not_lt.2 hk)]
  split_ifs with hk'
  · rw [Option.elim_some]
    rw [indirectOf, refs] at h
    rw [refs]
    split_ifs at h ⊢
    · exact if_pos h
    · rfl
  · rfl

/-- The indirect block counts once, as a new block or as one that gets an entry. -/
theorem indirect_once (s : Vol τ) (i : ℕ) (K : List ℕ) :
    (if (∃ k ∈ K, NDIRECT ≤ k) ∧ s.indirectOf i = 0 then 1 else 0) +
      (if s.AddsEntry i K ∧ s.indirectOf i ≠ 0 then {s.indirectOf i} else ∅ : Finset ℕ).card =
      if s.AddsEntry i K then 1 else 0 := by
  by_cases h0 : s.indirectOf i = 0
  · have hiff : (∃ k ∈ K, NDIRECT ≤ k) ↔ s.AddsEntry i K := by
      constructor
      · rintro ⟨k, hk, hle⟩
        exact ⟨k, hk, hle, blockAt_of_indirectOf h0 hle⟩
      · rintro ⟨k, hk, hle, -⟩
        exact ⟨k, hk, hle⟩
    rw [if_neg (c := s.AddsEntry i K ∧ s.indirectOf i ≠ 0) fun hc => hc.2 h0, Finset.card_empty]
    by_cases ha : s.AddsEntry i K
    · rw [if_pos ⟨hiff.2 ha, h0⟩, if_pos ha]
    · rw [if_neg fun hc => ha (hiff.1 hc.1), if_neg ha]
  · rw [if_neg (c := _ ∧ s.indirectOf i = 0) fun hc => h0 hc.2, Nat.zero_add]
    by_cases ha : s.AddsEntry i K
    · rw [if_pos ⟨ha, h0⟩, if_pos ha, Finset.card_singleton]
    · rw [if_neg fun hc => ha hc.1, if_neg ha, Finset.card_empty]

/-- What is listed is neither free nor in the free map. -/
theorem Sound.not_listed (h : Sound s) {x : ℕ}
    (hx : x ∈ (s.allocated i K).toFinset ∪ s.freeMapBlocks i K) (k : ℕ × Place) (h0 : x ≠ 0) :
    s.refs k ≠ x := by
  intro he
  rcases Finset.mem_union.1 hx with hx | hx
  · exact h.free_unlisted (allocated_subset_free s i K (mem_toFinset.1 hx)) k he
  · have h1 := (h.mem_freeMapBlocks hx).2
    have h2 := (h.refs.good k (he.symm ▸ h0)).1
    omega

/-- **The blocks logged while mapping and writing the indices `K`.** -/
theorem Sound.card_writes (h : Sound s) (hK : K.Nodup)
    (hfree : s.newBlocks i K ≤ s.free.length) : (s.writes i K).card =
      K.length + (s.freeMapBlocks i K).card + if s.AddsEntry i K then 1 else 0 := by
  have hAB : Disjoint (s.allocated i K).toFinset (s.freeMapBlocks i K) := by
    rw [Finset.disjoint_left]
    intro x hx hb
    have h1 := h.free_data (allocated_subset_free s i K (mem_toFinset.1 hx))
    have h2 := (h.mem_freeMapBlocks hb).2
    omega
  have hI : ∀ x, x ∈ (if s.AddsEntry i K ∧ s.indirectOf i ≠ 0 then {s.indirectOf i} else ∅ :
      Finset ℕ) → s.refs (i, .addr Dinode.indirect) = x ∧ x ≠ 0 := by
    intro x hx
    split_ifs at hx with hc
    · rw [Finset.mem_singleton] at hx
      exact ⟨hx.symm, hx ▸ hc.2⟩
    · exact absurd hx (Finset.notMem_empty x)
  have hABI : Disjoint ((s.allocated i K).toFinset ∪ s.freeMapBlocks i K)
      (if s.AddsEntry i K ∧ s.indirectOf i ≠ 0 then {s.indirectOf i} else ∅) := by
    rw [Finset.disjoint_left]
    intro x hx hi
    exact h.not_listed hx _ (hI x hi).2 (hI x hi).1
  have hO : Disjoint (s.touched i K) ((K.map (s.blockAt i)).toFinset.erase 0) := by
    rw [Finset.disjoint_left]
    intro x hx ho
    obtain ⟨h0, p, hp, he⟩ := refs_of_mem_mapped ho
    rcases Finset.mem_union.1 hx with hx | hx
    · exact h.not_listed hx _ h0 he
    · have hii := h.refs.inj _ _ (he.trans (hI x hx).1.symm) (he.symm ▸ h0)
      exact hp (congrArg Prod.snd hii)
  have hcount :
      K.length = K.countP (fun k => s.blockAt i k = 0) + K.countP fun k => ¬s.blockAt i k = 0 := by
    rw [length_eq_countP_add_countP fun k => decide (s.blockAt i k = 0)]
    simp
  have hind := indirect_once s i K
  rw [writes, Finset.card_union_of_disjoint hO, h.card_mapped hK, touched_eq,
    Finset.card_union_of_disjoint hABI, Finset.card_union_of_disjoint hAB, card_allocated hfree,
    newBlocks]
  omega

end Card

theorem cost_congr (hrefs : s'.refs = s.refs) (hfree : s'.free = s.free) (hsb : s'.sb = s.sb)
    {i : ℕ} (hd : s'.dinode i = s.dinode i) (off n : ℕ) : s'.cost i off n = s.cost i off n := by
  have halloc : s'.allocated i (span off n) = s.allocated i (span off n) := by
    rw [allocated, allocated, hfree, newBlocks_congr hrefs]
  have hmap : s'.freeMapBlocks i (span off n) = s.freeMapBlocks i (span off n) := by
    rw [freeMapBlocks, freeMapBlocks, halloc, hsb]
  have hadds : s'.AddsEntry i (span off n) ↔ s.AddsEntry i (span off n) := by
    simp only [AddsEntry, blockAt, hrefs]
  simp only [cost, hmap, hd, hadds]

/-- **How many blocks `writei` logs.** -/
theorem Sound.card_writeSet (h : Sound s) (hl : s.Loaded ip) {off n : ℕ}
    (hfree : s.newBlocks (s.num ip) (span off n) ≤ s.free.length) :
    (s.writeSet ip off n).card = s.cost (s.num ip) off n := by
  have hnum := h.inums ip hl.1
  have hib := h.wf.inode_lt _ hnum
  have hdisj : Disjoint (s.writes (s.num ip) (span off n))
      (if s.Extends ip off n then {iblock (s.num ip) s.sb} else ∅) := by
    rw [Finset.disjoint_left]
    intro x hx hi
    split_ifs at hi
    · rw [Finset.mem_singleton] at hi
      subst hi
      rcases Finset.mem_union.1 hx with hx | hx
      · rcases mem_touched.1 hx with hx | ⟨b, -, hb⟩ | ⟨-, h0, he⟩
        · have hmem := allocated_subset_free s _ _ hx
          exact h.iblock_ne_data (h.free_data hmem) (mem_free.1 hmem).1 hnum rfl
        · exact h.wf.iblock_ne_bblock hnum b hb.symm
        · exact h.refs_ne_iblock hnum _ he.symm
      · obtain ⟨-, p, -, he⟩ := refs_of_mem_mapped hx
        exact h.refs_ne_iblock hnum _ he
    · exact absurd hi (Finset.notMem_empty x)
  rw [writeSet, Finset.card_union_of_disjoint hdisj, h.card_writes (nodup_span off n) hfree, cost,
    h.dinode_num hl]
  congr 1
  by_cases he : s.Extends ip off n
  · rw [if_pos he, Finset.card_singleton]
    exact (if_pos he).symm
  · rw [if_neg he, Finset.card_empty]
    exact (if_neg he).symm

/-! ## One transaction -/

/-- A volume at rest with a regular file open as `f`. -/
structure Ready (s : Vol τ) (f : Fin NFILE) : Prop where
  /-- The volume is consistent. -/
  sound : Sound s
  /-- No buffer is held. -/
  idle : ∀ x, s.held x = none
  /-- The open file refers to its inode. -/
  ref : 0 < (s.inode (s.file f).ip).ref
  /-- Nobody has locked the inode. -/
  lock : (s.inode (s.file f).ip).lock = none
  /-- It is a regular file. -/
  regular : (s.dinode (s.num (s.file f).ip)).itype = T_FILE

/-- A write of `n` bytes at `off` that `writei` does not refuse. -/
def Accepts (s : Vol τ) (i off n : ℕ) : Prop :=
  off ≤ (s.dinode i).size.toNat ∧ off + n ≤ MAXFILE * BSIZE

instance (s : Vol τ) (i off n : ℕ) : Decidable (s.Accepts i off n) :=
  inferInstanceAs (Decidable (_ ∧ _))

/-- How many distinct blocks a transaction of `filewrite` for `n` bytes logs: none if
`writei` refuses the write. -/
def sectionCost (s : Vol τ) (f : Fin NFILE) (n : ℕ) : ℕ :=
  if s.Accepts (s.num (s.file f).ip) (s.file f).off n then
    s.cost (s.num (s.file f).ip) (s.file f).off n
  else 0

theorem isDev_eq_false {d : Dinode} (h : d.itype = T_FILE) : d.isDev = false := by
  rw [Dinode.isDev, h]
  decide

/-- The state in which `filewrite` calls `writei`. -/
def opened (s : Vol τ) (me : τ) (f : Fin NFILE) : Vol τ :=
  { s with log := s.log.enter }.locked me (s.file f).ip

variable {f : Fin NFILE}

theorem Ready.opened (h : Ready s f) (me : τ) :
    Sound (s.opened me f) ∧ (s.opened me f).refs = s.refs ∧ (s.opened me f).Loaded (s.file f).ip ∧
      ((s.opened me f).inode (s.file f).ip).d = s.dinode (s.num (s.file f).ip) := by
  obtain ⟨h1, h2, h3⟩ := (h.sound.relog s.log.enter).locked h.ref me
  refine ⟨h1, h2, h3, ?_⟩
  rw [Vol.opened, inode_locked]
  rfl

/-- `end_op` changes the log only. -/
theorem wp_endOp (hroom : s.log.committing = false ∨ ∀ msg, E msg)
    {Q : Unit → Vol τ → Prop} (hQ : ∀ lg, Q () { s with log := lg }) : endOp.wp E Q s := by
  rw [endOp, bind_eq, wp_bind, wp_critical]
  by_cases hc : s.log.committing = true
  · exact .inr ⟨_, if_pos hc, hroom.resolve_left (by simp [hc]) _⟩
  · refine .inl ?_
    by_cases h0 : s.log.leave.outstanding = 0
    · refine ⟨true, _, (if_neg hc).trans (if_pos h0), ?_⟩
      rw [if_pos rfl, wp_change]
      exact hQ _
    · refine ⟨false, _, (if_neg hc).trans (if_neg h0), ?_⟩
      exact hQ _

/-- The state at the end of a transaction: the file is written, its position moved, its
inode unlocked and the transaction closed. -/
theorem Ready.closed (h : Ready s f) {t : Vol τ} (ht : Framed (s.file f).ip (s.opened me f) t)
    {fl : Fin NFILE → File} (hfl : (fl f).ip = (s.file f).ip) (lg : Log) :
    Ready { ({ t with file := fl } : Vol τ).unlocked (s.file f).ip with log := lg } f := by
  obtain ⟨hs, hrefs, hl, hd⟩ := h.opened me
  have hl' := ht.loaded hl
  have ht' : Sound ({ t with file := fl } : Vol τ) :=
    ⟨ht.sound.wf, ht.sound.super, ht.sound.meta_marked, ht.sound.refs, ht.sound.slots,
      ht.sound.inums⟩
  have hun : (({ t with file := fl } : Vol τ).unlocked (s.file f).ip).inode (s.file f).ip =
      { t.inode (s.file f).ip with lock := none } := inode_modInode_self _ _
  refine
    { sound := (ht'.unlocked hl'.1).relog lg
      idle := fun x => ?_
      ref := ?_
      lock := ?_
      regular := ?_ }
  · change t.held x = none
    rw [ht.held]
    exact h.idle x
  · change 0 < ((({ t with file := fl } : Vol τ).unlocked (s.file f).ip).inode (fl f).ip).ref
    rw [hfl, hun]
    exact hl'.1
  · change ((({ t with file := fl } : Vol τ).unlocked (s.file f).ip).inode (fl f).ip).lock = none
    rw [hfl, hun]
  · change ((({ t with file := fl } : Vol τ).unlocked (s.file f).ip).dinode
      ((({ t with file := fl } : Vol τ).unlocked (s.file f).ip).inode (fl f).ip).inum).itype = _
    rw [hfl, hun, dinode_unlocked]
    change (t.dinode (t.num (s.file f).ip)).itype = T_FILE
    rw [ht.sound.dinode_num hl', ht.itype, hd, h.regular]

/-- What a transaction of `filewrite` has done. -/
structure Wrote (f : Fin NFILE) (n : ℕ) (s : Vol τ) (r : ℤ) (s' : Vol τ) : Prop where
  /-- The next transaction can start. -/
  ready : Ready s' f
  /-- The blocks logged. -/
  passed : ∃ l, s'.passed = s.passed ++ l ∧ l.toFinset.card = s.sectionCost f n

theorem Wrote.card {n : ℕ} {r : ℤ} (h : Wrote f n s r s') :
    (s'.passed.drop s.passed.length).toFinset.card = s.sectionCost f n := by
  obtain ⟨l, hl, hcard⟩ := h.passed
  rw [hl, drop_left, hcard]

/-- The state in which a transaction of `filewrite` ends: the position moved by what `writei`
returned, the inode unlocked, and some log. -/
def sectionEnd (t : Vol τ) (f : Fin NFILE) (ip : Fin NINODE) (r : ℤ) (lg : Log) : Vol τ :=
  { ({ t with file := if 0 < r then
      Function.update t.file f { t.file f with off := (t.file f).off + r.toNat } else t.file } :
        Vol τ).unlocked ip with log := lg }

/-- The position of an open file has no part in which file it is. -/
theorem ip_sectionEnd (t : Vol τ) (f : Fin NFILE) (ip : Fin NINODE) (r : ℤ) (lg : Log) :
    ((t.sectionEnd f ip r lg).file f).ip = (t.file f).ip := by
  unfold sectionEnd
  change ((if 0 < r then Function.update t.file f _ else t.file) f).ip = _
  split_ifs
  · rw [Function.update_self]
  · rfl

/-- The rule for one transaction of `filewrite`: `writei` overwrites, or refuses. -/
theorem wp_writeSection_of (D : Devsw τ) (h : Ready s f) (src : ℕ → UInt8) {n : ℕ}
    (hwait : s.log.mustWait = false)
    (hspare : (s.opened me f).Spare E
      ((s.opened me f).newBlocks (s.num (s.file f).ip) (span (s.file f).off n)))
    (hroom : (s.opened me f).log.RoomOr E
      ((s.opened me f).writeSet (s.file f).ip (s.file f).off n)) {Q : ℤ → Vol τ → Prop}
    (hok : s.Accepts (s.num (s.file f).ip) (s.file f).off n → ∀ t lg,
      Overwritten (s.file f).ip src (s.file f).off n (s.opened me f) t →
      Q n (t.sectionEnd f (s.file f).ip n lg))
    (hbad : ¬s.Accepts (s.num (s.file f).ip) (s.file f).off n → ∀ lg,
      Q (-1) ((s.opened me f).sectionEnd f (s.file f).ip (-1) lg)) :
    (writeSection D me f src n).wp E Q s := by
  obtain ⟨hs, hrefs, hl, hd⟩ := h.opened me
  have hdev : ((s.opened me f).inode (s.file f).ip).d.isDev = false := by
    rw [hd]
    exact isDev_eq_false h.regular
  have htype : ((s.opened me f).inode (s.file f).ip).d.itype ≠ 0 := by
    rw [hd, h.regular]
    decide
  have hidle : ∀ x, (s.opened me f).held x = none := h.idle
  have hnum : (s.opened me f).num (s.file f).ip = s.num (s.file f).ip := by
    rw [num, Vol.opened, inode_locked]
  have hlock : ((s.opened me f).inode (s.file f).ip).lock = some me := by
    rw [Vol.opened, inode_locked]
  -- from any state `writei` leaves behind, the rest of the section
  have hrest : ∀ (r : ℤ) (t : Vol τ), Framed (s.file f).ip (s.opened me f) t →
      t.log.RoomOr E ((s.opened me f).writeSet (s.file f).ip (s.file f).off n) →
      (∀ lg, Q r (t.sectionEnd f (s.file f).ip r lg)) →
      ((advance f r).bind fun _ => (iunlock (s.file f).ip).bind fun _ =>
        (endOp.bind fun _ => Prog.ret r)).wp E Q t := by
    intro r t ht hroom' hQ
    obtain ⟨sz, ad, hin⟩ := ht.inode
    have hend : ∀ fl : Fin NFILE → File,
        (∀ lg, Q r { ({ t with file := fl } : Vol τ).unlocked (s.file f).ip with log := lg }) →
        ((iunlock (s.file f).ip).bind fun _ => (endOp.bind fun _ => Prog.ret r)).wp E Q
          ({ t with file := fl } : Vol τ) := by
      intro fl hfl
      rw [wp_bind]
      have hheld : (t.inode (s.file f).ip).lock = some me := by
        rw [hin]
        exact hlock
      refine wp_iunlock (s := { t with file := fl }) (ht.loaded hl).1 hheld ?_
      rw [wp_bind]
      exact wp_endOp (hroom'.imp_left fun hr => hr.committing) hfl
    unfold sectionEnd at hQ
    rw [wp_bind, advance]
    split_ifs at hQ ⊢
    · rw [wp_change]
      exact hend _ hQ
    · exact hend t.file hQ
  simp only [writeSection, bind_eq]
  rw [wp_bind, beginOp, wp_await, hwait]
  refine ⟨rfl, ?_⟩
  rw [wp_bind, wp_look, wp_bind]
  refine wp_ilock (s := { s with log := s.log.enter }) (h.sound.relog _) h.ref h.lock (h.idle _)
    (Or.inl ?_) fun _ => ?_
  · change (s.dinode (s.num (s.file f).ip)).itype ≠ 0
    rw [h.regular]
    decide
  · rw [wp_bind, wp_look, wp_bind]
    change (writei D me (s.file f).ip src (s.file f).off n).wp E _ (s.opened me f)
    by_cases ha : s.Accepts (s.num (s.file f).ip) (s.file f).off n
    · rw [← hnum] at hspare
      refine wp_mono (wp_writei D hs hl htype hdev hidle src (by rw [hd]; exact ha.1) ha.2
        hspare hroom (Finset.Subset.refl _)) ?_
      rintro r t ⟨rfl, ho, hroom'⟩
      exact hrest n t ho.framed hroom' fun lg => hok ha t lg ho
    · refine wp_writei_bad D hdev src ?_ (hrest _ _ (Grown.refl hs _).framed hroom (hbad ha))
      rw [hd]
      rw [Accepts, not_and_or] at ha
      omega

/-- **One transaction of `filewrite`.** -/
theorem wp_writeSection (D : Devsw τ) (h : Ready s f) (src : ℕ → UInt8) {n : ℕ}
    (hwait : s.log.mustWait = false)
    (hspare : (s.opened me f).Spare E
      ((s.opened me f).newBlocks (s.num (s.file f).ip) (span (s.file f).off n)))
    (hroom : (s.opened me f).log.RoomOr E
      ((s.opened me f).writeSet (s.file f).ip (s.file f).off n)) :
    (writeSection D me f src n).wp E (Wrote f n s) s := by
  obtain ⟨hs, hrefs, hl, hd⟩ := h.opened me
  have hnum : (s.opened me f).num (s.file f).ip = s.num (s.file f).ip := by
    rw [num, Vol.opened, inode_locked]
  refine wp_writeSection_of D h src hwait hspare hroom (fun ha t lg ho => ?_) fun ha lg => ?_
  · refine ⟨h.closed ho.framed ?_ lg, ?_⟩
    · exact (ip_sectionEnd t f (s.file f).ip _ lg).trans
        (congrArg File.ip (congrFun ho.framed.file f))
    · obtain ⟨l, hl₁, hl₂⟩ := ho.passed
      refine ⟨l, hl₁, ?_⟩
      rw [hl₂, hs.card_writeSet hl ho.enough, sectionCost, if_pos ha, hnum]
      apply cost_congr hrefs rfl rfl
      rw [← hnum, hs.dinode_num hl, hd, hnum]
  · refine ⟨h.closed (Grown.refl hs _).framed rfl lg, [], (List.append_nil _).symm, ?_⟩
    rw [sectionCost, if_neg ha]
    rfl

end Vol

end Xv6.Fs
