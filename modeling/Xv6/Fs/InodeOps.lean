import Xv6.Fs.FileIO

/-!
# Inodes come and go

What the operations on the inode cache do on their own: they change which entry
is in use, locked or valid, and leave every inode and every file as it is.

* `Sound.of_sameFile` — a change to the cache that leaves every file alone leaves
  the listing alone.
* `wp_ilock`, `wp_iunlock` — locking loads the inode.
-/

namespace Xv6.Fs

open Lib Prog List

namespace Vol

variable {τ : Type} {s s' : Vol τ} {E : String → Prop} {me : τ} {F : Finset ℕ} {ip : Fin NINODE}

/-! ## Changes to the cache -/

/-- Two copies of an inode that describe the same file; links and device numbers may
differ. -/
structure SameFile (d d' : Dinode) : Prop where
  /-- Same type. -/
  itype : d.itype = d'.itype
  /-- Same size. -/
  size : d.size = d'.size
  /-- Same blocks. -/
  addrs : d.addrs = d'.addrs

theorem SameFile.of_eq {d d' : Dinode} (h : d = d') : SameFile d d' := h ▸ ⟨rfl, rfl, rfl⟩

theorem SameFile.place_of {d d' : Dinode} (h : SameFile d d') (blk : ℕ → Block) (p : Place) :
    p.of blk d = p.of blk d' := by
  have haddr : ∀ j, d.addr j = d'.addr j := fun j => by rw [Dinode.addr, Dinode.addr, h.addrs]
  cases p with
  | addr j => exact haddr j
  | entry k => simp only [Place.of, haddr]

/-- The listing is read off the files' inodes and the indirect blocks. -/
theorem refs_of_sameFile (hblk : s'.blk = s.blk) (hsb : s'.sb = s.sb)
    (hd : ∀ i, i < s.sb.ninodes → SameFile (s'.dinode i) (s.dinode i)) : s'.refs = s.refs := by
  funext ⟨i, p⟩
  have huse : s'.InUse i ↔ s.InUse i := by
    rw [InUse, InUse, hsb]
    exact and_congr_right fun hi => by rw [(hd i hi).itype]
  by_cases hu : s.InUse i
  · rw [refs_of_inUse (huse.2 hu), refs_of_inUse hu, (hd i hu.1).place_of, hblk]
  · rw [refs_of_not_inUse (mt huse.1 hu), refs_of_not_inUse hu]

theorem refs_congr (hblk : s'.blk = s.blk) (hsb : s'.sb = s.sb)
    (hd : ∀ i, i < s.sb.ninodes → s'.dinode i = s.dinode i) : s'.refs = s.refs :=
  refs_of_sameFile hblk hsb fun i hi => .of_eq (hd i hi)

theorem bit_congr (hblk : s'.blk = s.blk) (hsb : s'.sb = s.sb) (b : ℕ) : s'.bit b = s.bit b := by
  rw [bit, bit, hblk, hsb]

theorem free_congr (hblk : s'.blk = s.blk) (hsb : s'.sb = s.sb) : s'.free = s.free := by
  simp only [free, hsb, bit_congr hblk hsb]

/-- A change to the inode cache that leaves every file alone. -/
theorem Sound.of_sameFile (h : Sound s) (hblk : s'.blk = s.blk) (hsb : s'.sb = s.sb)
    (hd : ∀ i, i < s.sb.ninodes → SameFile (s'.dinode i) (s.dinode i))
    (hslots : s'.Distinct)
    (hinums : ∀ jp, 0 < (s'.inode jp).ref → (s'.inode jp).inum < s.sb.ninodes) : Sound s' where
  wf := hsb ▸ h.wf
  super := by rw [hblk, hsb]; exact h.super
  meta_marked b hb := by rw [bit_congr hblk hsb]; exact h.meta_marked b (hsb ▸ hb)
  refs := by
    rw [refs_of_sameFile hblk hsb hd]
    apply h.refs.shrink fun k => Or.inl rfl
    rintro k - ⟨h1, h2, h3⟩
    exact ⟨hsb ▸ h1, hsb ▸ h2, (bit_congr hblk hsb _).trans h3⟩
  slots := hslots
  inums jp hj := hsb ▸ hinums jp hj

theorem Sound.of_dinode (h : Sound s) (hblk : s'.blk = s.blk) (hsb : s'.sb = s.sb)
    (hd : ∀ i, i < s.sb.ninodes → s'.dinode i = s.dinode i) (hslots : s'.Distinct)
    (hinums : ∀ jp, 0 < (s'.inode jp).ref → (s'.inode jp).inum < s.sb.ninodes) : Sound s' :=
  h.of_sameFile hblk hsb (fun i hi => .of_eq (hd i hi)) hslots hinums

theorem inode_modInode_self (ip : Fin NINODE) (f : Inode τ → Inode τ) :
    (s.modInode ip f).inode ip = f (s.inode ip) := by
  simp [modInode]

theorem inode_modInode_of_ne {jp ip : Fin NINODE} (h : jp ≠ ip) (f : Inode τ → Inode τ) :
    (s.modInode ip f).inode jp = s.inode jp := by
  simp [modInode, h]

/-- Whether an entry holds a valid copy of inode `i`. -/
theorem cached_isSome {i : ℕ} : (s.cached i).isSome ↔ ∃ jp, s.Loaded jp ∧ s.num jp = i := by
  rw [cached, find?_isSome]
  simp only [mem_finRange, true_and, Bool.and_eq_true, decide_eq_true_eq, beq_iff_eq]
  rfl

theorem cached_eq_none {i : ℕ} (h : ∀ jp, s.Loaded jp → s.num jp ≠ i) : s.cached i = none := by
  rw [← Option.not_isSome_iff_eq_none, cached_isSome]
  rintro ⟨jp, hj, he⟩
  exact h jp hj he

/-- A changed entry matters to its own inode only. -/
theorem Distinct.dinode_modInode_of_ne (h : s.Distinct) {f : Inode τ → Inode τ} {i : ℕ}
    (hs : (s.modInode ip f).Distinct) (h1 : 0 < (s.inode ip).ref → s.num ip ≠ i)
    (h2 : 0 < (f (s.inode ip)).ref → (f (s.inode ip)).inum ≠ i) :
    (s.modInode ip f).dinode i = s.dinode i := by
  by_cases hc : ∃ jp, s.Loaded jp ∧ s.num jp = i
  · obtain ⟨jp, hj, rfl⟩ := hc
    have hne : jp ≠ ip := by
      rintro rfl
      exact h1 hj.1 rfl
    have hj' : (s.modInode ip f).Loaded jp := by
      rw [Loaded, inode_modInode_of_ne hne]
      exact hj
    have hnum : (s.modInode ip f).num jp = s.num jp := by rw [num, inode_modInode_of_ne hne]
    rw [h.dinode_num hj, ← hnum, hs.dinode_num hj', inode_modInode_of_ne hne]
  · have h3 : s.cached i = none := cached_eq_none fun jp hj he => hc ⟨jp, hj, he⟩
    have h4 : (s.modInode ip f).cached i = none := by
      refine cached_eq_none fun jp hj he => ?_
      by_cases hne : jp = ip
      · subst hne
        rw [Loaded, inode_modInode_self] at hj
        rw [num, inode_modInode_self] at he
        exact h2 hj.1 he
      · rw [Loaded, inode_modInode_of_ne hne] at hj
        rw [num, inode_modInode_of_ne hne] at he
        exact hc ⟨jp, hj, he⟩
    rw [dinode, dinode, h3, h4]
    rfl

/-- An entry that keeps its inode keeps the cache without duplicates. -/
theorem Distinct.modInode (h : s.Distinct) {f : Inode τ → Inode τ}
    (href : 0 < (f (s.inode ip)).ref → 0 < (s.inode ip).ref)
    (hnum : (f (s.inode ip)).inum = s.num ip) : (s.modInode ip f).Distinct := by
  have hback : ∀ jp, 0 < ((s.modInode ip f).inode jp).ref →
      0 < (s.inode jp).ref ∧ ((s.modInode ip f).inode jp).inum = (s.inode jp).inum := by
    intro jp hj
    by_cases hne : jp = ip
    · subst hne
      rw [inode_modInode_self] at hj ⊢
      exact ⟨href hj, hnum⟩
    · rw [inode_modInode_of_ne hne] at hj ⊢
      exact ⟨hj, rfl⟩
  intro jp kp hj hk he
  obtain ⟨hj', hjn⟩ := hback jp hj
  obtain ⟨hk', hkn⟩ := hback kp hk
  exact h jp kp hj' hk' (hjn.symm.trans (he.trans hkn))

/-- A change to an entry in use that leaves its file alone leaves every file alone. -/
theorem Sound.sameFile_modInode (h : Sound s) {f : Inode τ → Inode τ} (hr : 0 < (s.inode ip).ref)
    (hnum : (f (s.inode ip)).inum = s.num ip)
    (hd : SameFile ((s.modInode ip f).dinode (s.num ip)) (s.dinode (s.num ip))) (i : ℕ) :
    SameFile ((s.modInode ip f).dinode i) (s.dinode i) := by
  by_cases hi : i = s.num ip
  · rw [hi]
    exact hd
  · refine .of_eq (h.slots.dinode_modInode_of_ne (h.slots.modInode (fun _ => hr) hnum)
      (fun _ => Ne.symm hi) fun _ => ?_)
    rw [hnum]
    exact Ne.symm hi

theorem Sound.modInode (h : Sound s) {f : Inode τ → Inode τ} (hr : 0 < (s.inode ip).ref)
    (hnum : (f (s.inode ip)).inum = s.num ip)
    (hd : SameFile ((s.modInode ip f).dinode (s.num ip)) (s.dinode (s.num ip))) :
    Sound (s.modInode ip f) ∧ (s.modInode ip f).refs = s.refs := by
  have hd' := fun i (_ : i < s.sb.ninodes) => h.sameFile_modInode hr hnum hd i
  refine ⟨h.of_sameFile rfl rfl hd' (h.slots.modInode (fun _ => hr) hnum) fun jp hj => ?_,
    refs_of_sameFile rfl rfl hd'⟩
  by_cases hne : jp = ip
  · subst hne
    rw [inode_modInode_self, hnum]
    exact h.inums jp hr
  · rw [inode_modInode_of_ne hne] at hj ⊢
    exact h.inums jp hj

theorem modInode_modInode (s : Vol τ) (ip : Fin NINODE) (f g : Inode τ → Inode τ) :
    (s.modInode ip f).modInode ip g = s.modInode ip fun x => g (f x) := by
  simp [modInode]

theorem modInode_congr {f g : Inode τ → Inode τ} (h : f (s.inode ip) = g (s.inode ip)) :
    s.modInode ip f = s.modInode ip g := by
  rw [modInode, modInode, h]

/-! ## `iget` -/

/-- What `iget` has done when it returns entry `ip` for inode `i`. -/
structure Got (i : ℕ) (ip : Fin NINODE) (s s' : Vol τ) : Prop where
  /-- Only that entry has changed. -/
  only : s' = s.modInode ip fun _ => s'.inode ip
  /-- An entry in use was for the inode, and has one reference more. -/
  hit : 0 < (s.inode ip).ref →
    s.num ip = i ∧ s'.inode ip = { s.inode ip with ref := (s.inode ip).ref + 1 }
  /-- A free entry is taken only if there is none for the inode. -/
  miss : (s.inode ip).ref = 0 → (∀ jp, 0 < (s.inode jp).ref → s.num jp ≠ i) ∧
    s'.inode ip = { s.inode ip with inum := i, ref := 1, valid := false }

/-- **`iget` finds the inode's entry or takes a free one.** -/
theorem wp_iget (i : ℕ) (hslot : (∃ jp, 0 < (s.inode jp).ref ∧ s.num jp = i) ∨
      (∃ jp, (s.inode jp).ref = 0) ∨ ∀ msg, E msg)
    {Q : Fin NINODE → Vol τ → Prop} (hQ : ∀ ip s', Got i ip s s' → Q ip s') :
      (iget i).wp E Q s := by
  rw [iget, wp_critical, igetSection]
  cases hf : (List.finRange NINODE).find? fun jp =>
      decide (0 < (s.inode jp).ref) && (s.inode jp).inum == i with
  | some jp =>
    have hp := find?_some hf
    simp only [Bool.and_eq_true, decide_eq_true_eq, beq_iff_eq] at hp
    refine .inl ⟨jp, _, rfl, hQ _ _ ⟨?_, fun _ => ⟨hp.2, inode_modInode_self jp _⟩,
      fun h0 => absurd hp.1 (by omega)⟩⟩
    rw [inode_modInode_self]
    exact modInode_congr rfl
  | none =>
    have hno : ∀ jp, 0 < (s.inode jp).ref → s.num jp ≠ i := by
      intro jp hj he
      have := find?_eq_none.1 hf jp (mem_finRange jp)
      simp [hj, he] at this
    cases hg : (List.finRange NINODE).find? fun jp => (s.inode jp).ref == 0 with
    | some jp =>
      have hp := find?_some hg
      rw [beq_iff_eq] at hp
      refine .inl ⟨jp, _, rfl, hQ _ _ ⟨?_, fun hpos => absurd hp (by omega),
        fun _ => ⟨hno, inode_modInode_self jp _⟩⟩⟩
      rw [inode_modInode_self]
      exact modInode_congr rfl
    | none =>
      refine .inr ⟨_, rfl, ?_⟩
      rcases hslot with ⟨jp, hj, he⟩ | ⟨jp, hj⟩ | hE
      · exact absurd he (hno jp hj)
      · have := find?_eq_none.1 hg jp (mem_finRange jp)
        simp [hj] at this
      · exact hE _

namespace Got

variable {i : ℕ}

theorem num (h : Got i ip s s') : s'.num ip = i := by
  rw [Vol.num]
  rcases Nat.eq_zero_or_pos (s.inode ip).ref with h0 | h0
  · rw [(h.miss h0).2]
  · rw [(h.hit h0).2]
    exact (h.hit h0).1

theorem ref (h : Got i ip s s') : 0 < (s'.inode ip).ref := by
  rcases Nat.eq_zero_or_pos (s.inode ip).ref with h0 | h0
  · rw [(h.miss h0).2]
    exact Nat.one_pos
  · rw [(h.hit h0).2]
    exact Nat.succ_pos _

theorem lock (h : Got i ip s s') : (s'.inode ip).lock = (s.inode ip).lock := by
  rcases Nat.eq_zero_or_pos (s.inode ip).ref with h0 | h0
  · rw [(h.miss h0).2]
  · rw [(h.hit h0).2]

theorem of_ne (h : Got i ip s s') {jp : Fin NINODE} (hj : jp ≠ ip) : s'.inode jp = s.inode jp := by
  rw [h.only, inode_modInode_of_ne hj]

theorem frame (h : Got i ip s s') : s'.blk = s.blk ∧ s'.sb = s.sb ∧ s'.held = s.held ∧
    s'.log = s.log ∧ s'.file = s.file ∧ s'.passed = s.passed := by
  rw [h.only]
  exact ⟨rfl, rfl, rfl, rfl, rfl, rfl⟩

/-- The cache still has no two entries for one inode. -/
theorem distinct (h : Got i ip s s') (hs : s.Distinct) : s'.Distinct := by
  have hother : ∀ jp, jp ≠ ip → 0 < (s'.inode jp).ref → s'.num jp ≠ s'.num ip := by
    intro jp hj hr he
    rw [h.num, Vol.num, h.of_ne hj] at he
    rw [h.of_ne hj] at hr
    rcases Nat.eq_zero_or_pos (s.inode ip).ref with h0 | h0
    · exact (h.miss h0).1 jp hr he
    · exact hj (hs jp ip hr h0 (he.trans (h.hit h0).1.symm))
  intro jp kp hj hk he
  by_cases hjp : jp = ip
  · by_cases hkp : kp = ip
    · rw [hjp, hkp]
    · rw [hjp] at he
      exact absurd he.symm (hother kp hkp hk)
  · by_cases hkp : kp = ip
    · rw [hkp] at he
      exact absurd he (hother jp hjp hj)
    · rw [h.of_ne hjp] at hj he
      rw [h.of_ne hkp] at hk he
      exact hs jp kp hj hk he

theorem dinode (h : Got i ip s s') (hs : s.Distinct) (j : ℕ) : s'.dinode j = s.dinode j := by
  have hs' := h.distinct hs
  rw [h.only] at hs' ⊢
  by_cases hji : j = i
  · subst hji
    rcases Nat.eq_zero_or_pos (s.inode ip).ref with h0 | h0
    · -- no valid entry before, none after
      have hnone : s.cached j = none :=
        cached_eq_none fun jp hj he => (h.miss h0).1 jp hj.1 he
      have hnone' : s'.cached j = none := by
        refine cached_eq_none fun jp hj he => ?_
        by_cases hjp : jp = ip
        · rw [hjp, Loaded, (h.miss h0).2] at hj
          exact Bool.noConfusion hj.2
        · rw [Loaded, h.of_ne hjp] at hj
          rw [Vol.num, h.of_ne hjp] at he
          exact (h.miss h0).1 jp hj.1 he
      rw [← h.only, Vol.dinode, Vol.dinode, hnone, hnone', disk, disk, h.frame.1, h.frame.2.1]
    · obtain ⟨hn, hin⟩ := h.hit h0
      rw [← h.only] at hs' ⊢
      by_cases hv : (s.inode ip).valid = true
      · have hl' : s'.Loaded ip := by
          rw [Loaded, hin]
          exact ⟨Nat.succ_pos _, hv⟩
        conv_lhs => rw [← h.num]
        rw [hs'.dinode_num hl', hin, ← hn, hs.dinode_num ⟨h0, hv⟩]
      · have hno : ∀ t : Vol τ, t.Distinct → 0 < (t.inode ip).ref → (t.inode ip).valid = false →
            t.num ip = j → t.cached j = none := by
          intro t ht hr hf hnum
          refine cached_eq_none fun jp hj he => ?_
          have hjp := ht jp ip hj.1 hr (he.trans hnum.symm)
          rw [Loaded, hjp, hf] at hj
          exact Bool.noConfusion hj.2
        have hf : (s.inode ip).valid = false := Bool.eq_false_iff.2 hv
        rw [Vol.dinode, Vol.dinode, hno s hs h0 hf hn,
          hno s' hs' h.ref (by rw [hin]; exact hf) h.num, disk, disk, h.frame.1, h.frame.2.1]
  · refine hs.dinode_modInode_of_ne hs' (fun h0 => ?_) fun _ => ?_
    · rw [(h.hit h0).1]
      exact Ne.symm hji
    · change s'.num ip ≠ j
      rw [h.num]
      exact Ne.symm hji

theorem sound (h : Got i ip s s') (hs : Sound s) (hi : i < s.sb.ninodes) :
    Sound s' ∧ s'.refs = s.refs := by
  obtain ⟨hblk, hsb, -⟩ := h.frame
  have hd := fun j (_ : j < s.sb.ninodes) => h.dinode hs.slots j
  refine ⟨hs.of_dinode hblk hsb hd (h.distinct hs.slots) fun jp hj => ?_, refs_congr hblk hsb hd⟩
  by_cases hjp : jp = ip
  · rw [hjp]
    change s'.num ip < _
    rw [h.num]
    exact hi
  · rw [h.of_ne hjp] at hj ⊢
    exact hs.inums jp hj

end Got

/-! ## `ilock` and `iunlock` -/

/-- An entry locked by `me`, with its inode loaded. -/
def locked (s : Vol τ) (me : τ) (ip : Fin NINODE) : Vol τ :=
  s.modInode ip fun x => { x with lock := some me, valid := true, d := s.dinode (s.num ip) }

theorem inode_locked (s : Vol τ) (me : τ) (ip : Fin NINODE) : (s.locked me ip).inode ip =
    { s.inode ip with lock := some me, valid := true, d := s.dinode (s.num ip) } :=
  inode_modInode_self ip _

theorem Sound.locked (h : Sound s) (hr : 0 < (s.inode ip).ref) (me : τ) :
    Sound (s.locked me ip) ∧ (s.locked me ip).refs = s.refs ∧ (s.locked me ip).Loaded ip := by
  have hl : (s.locked me ip).Loaded ip := by
    rw [Loaded, inode_locked]
    exact ⟨hr, rfl⟩
  have hdist : (s.locked me ip).Distinct := h.slots.modInode (fun _ => hr) rfl
  have hd : (s.locked me ip).dinode (s.num ip) = s.dinode (s.num ip) := by
    have hn : (s.locked me ip).num ip = s.num ip := by rw [num, inode_locked]
    rw [← hn, hdist.dinode_num hl, inode_locked, hn]
  obtain ⟨h1, h2⟩ := h.modInode hr rfl (.of_eq hd)
  exact ⟨h1, h2, hl⟩

/-- Without a valid entry the copy on disk counts. -/
theorem Distinct.dinode_of_invalid (h : s.Distinct) (hr : 0 < (s.inode ip).ref)
    (hv : (s.inode ip).valid = false) : s.dinode (s.num ip) = s.disk (s.num ip) := by
  have hc : s.cached (s.num ip) = none := by
    refine cached_eq_none fun jp hj he => ?_
    have hjp := h jp ip hj.1 hr he
    rw [Loaded, hjp, hv] at hj
    exact Bool.noConfusion hj.2
  rw [dinode, hc]

/-- `ilock` leaves a valid copy alone and loads any other. -/
def loading (s : Vol τ) (me : τ) (ip : Fin NINODE) : Vol τ :=
  s.modInode ip fun x =>
    if x.valid then { x with lock := some me }
    else { x with lock := some me, valid := true, d := s.disk x.inum }

/-- **`ilock`, whatever the rest of the volume is like.** -/
theorem wp_ilock_loading (hr : 0 < (s.inode ip).ref ∨ ∀ msg, E msg)
    (hlock : (s.inode ip).lock = none)
    (hheld : s.held (iblock (s.num ip) s.sb) = none)
    (ht : (s.inode ip).valid = true ∨ (s.disk (s.num ip)).itype ≠ 0 ∨ ∀ msg, E msg)
    {Q : Unit → Vol τ → Prop}
    (hQ : 0 < (s.inode ip).ref → ((s.inode ip).valid = false → (s.disk (s.num ip)).itype ≠ 0) →
      Q () (s.loading me ip)) : (ilock me ip).wp E Q s := by
  have hself := inode_modInode_self (s := s) ip fun x => { x with lock := some me }
  simp only [ilock, bind_eq, wp_bind, wp_panicIf, wp_await, wp_look, hlock,
    Option.isNone_none, true_and, decide_eq_true_eq]
  refine ⟨fun hlt => hr.resolve_left (by omega) _, fun hge => ?_⟩
  have hpos : 0 < (s.inode ip).ref := by
    simp only [decide_eq_false_iff_not] at hge
    omega
  rw [hself]
  cases hv : (s.inode ip).valid with
  | true =>
    have he : s.modInode ip (fun x => { x with lock := some me }) = s.loading me ip := by
      apply modInode_congr
      rw [if_pos hv]
    rw [if_pos rfl, he]
    exact hQ hpos fun hf => Bool.noConfusion (hv.symm.trans hf)
  | false =>
    rw [if_neg Bool.false_ne_true]
    simp only [wp_bind, wp_look, wp_read]
    refine ⟨hheld, ?_⟩
    by_cases h0 : (s.disk (s.num ip)).itype = 0
    · have hE := (ht.resolve_left (by simp [hv])).resolve_left (not_not.2 h0)
      exact (wp_critical _).2 (Or.inr ⟨_, if_pos h0, hE _⟩)
    · refine (wp_critical _).2 (Or.inl ⟨(), _, if_neg h0, ?_⟩)
      have hnone := setHeld_none (s.modInode ip fun x => { x with lock := some me }) me hheld
      have hrel : ∀ f : Inode τ → Inode τ,
          (((s.modInode ip fun x => { x with lock := some me }).setHeld (iblock (s.num ip) s.sb)
            (some me)).modInode ip f).setHeld (iblock (s.num ip) s.sb) none =
          s.modInode ip fun x => f { x with lock := some me } := fun f =>
        (congrArg (fun t => Vol.modInode t ip f) hnone).trans (modInode_modInode s ip _ f)
      rw [wp_release]
      refine Eq.mp (congrArg (Q ()) ?_) (hQ hpos fun _ => h0)
      refine Eq.trans (modInode_congr ?_) (hrel _).symm
      rw [hv, if_neg Bool.false_ne_true]
      rfl

/-- In a consistent cache what is loaded is the copy that counts. -/
theorem Distinct.loading_eq_locked (h : s.Distinct) (hr : 0 < (s.inode ip).ref) (me : τ) :
    s.loading me ip = s.locked me ip := by
  apply modInode_congr
  cases hv : (s.inode ip).valid with
  | true => rw [if_pos rfl, h.dinode_num ⟨hr, hv⟩, ← hv]
  | false =>
    rw [if_neg Bool.false_ne_true, h.dinode_of_invalid hr hv]

/-- **`ilock` locks the inode and loads it.** -/
theorem wp_ilock (h : Sound s) (hr : 0 < (s.inode ip).ref) (hlock : (s.inode ip).lock = none)
    (hheld : s.held (iblock (s.num ip) s.sb) = none)
    (ht : (s.dinode (s.num ip)).itype ≠ 0 ∨ ∀ msg, E msg) {Q : Unit → Vol τ → Prop}
    (hQ : ((s.inode ip).valid = false → (s.dinode (s.num ip)).itype ≠ 0) → Q () (s.locked me ip)) :
    (ilock me ip).wp E Q s := by
  have hcopy : (s.inode ip).valid = true ∨ s.dinode (s.num ip) = s.disk (s.num ip) := by
    cases hv : (s.inode ip).valid with
    | true => exact .inl rfl
    | false => exact .inr (h.slots.dinode_of_invalid hr hv)
  refine wp_ilock_loading (Or.inl hr) hlock hheld (hcopy.imp_right fun hd => hd ▸ ht)
    fun _ hne => ?_
  rw [h.slots.loading_eq_locked hr]
  refine hQ fun hv => ?_
  rw [hcopy.resolve_left (by simp [hv])]
  exact hne hv

/-- An entry unlocked. -/
def unlocked (s : Vol τ) (ip : Fin NINODE) : Vol τ := s.modInode ip fun x => { x with lock := none }

/-- Who holds an entry does not matter to the inodes. -/
theorem dinode_unlocked (s : Vol τ) (ip : Fin NINODE) (i : ℕ) :
    (s.unlocked ip).dinode i = s.dinode i := by
  have hsame : ∀ jp, ((s.unlocked ip).inode jp).ref = (s.inode jp).ref ∧
      ((s.unlocked ip).inode jp).valid = (s.inode jp).valid ∧
      ((s.unlocked ip).inode jp).inum = (s.inode jp).inum ∧
      ((s.unlocked ip).inode jp).d = (s.inode jp).d := by
    intro jp
    by_cases hj : jp = ip
    · subst hj
      rw [unlocked, inode_modInode_self]
      exact ⟨rfl, rfl, rfl, rfl⟩
    · rw [unlocked, inode_modInode_of_ne hj]
      exact ⟨rfl, rfl, rfl, rfl⟩
  have hcached : (s.unlocked ip).cached i = s.cached i := by
    simp only [cached, fun jp => (hsame jp).1, fun jp => (hsame jp).2.1, fun jp => (hsame jp).2.2.1]
  simp only [dinode, hcached, fun jp => (hsame jp).2.2.2]
  rfl

theorem Sound.unlocked (h : Sound s) (hr : 0 < (s.inode ip).ref) : Sound (s.unlocked ip) :=
  (h.modInode hr rfl (.of_eq (dinode_unlocked s ip _))).1

theorem Sound.relog (h : Sound s) (lg : Log) : Sound { s with log := lg } :=
  ⟨h.wf, h.super, h.meta_marked, h.refs, h.slots, h.inums⟩

theorem wp_iunlock (hr : 0 < (s.inode ip).ref)
    (hlock : (s.inode ip).lock = some me) {Q : Unit → Vol τ → Prop} (hQ : Q () (s.unlocked ip)) :
    (iunlock ip).wp E Q s := by
  have h1 : decide ((s.inode ip).ref < 1) = false := decide_eq_false (by omega)
  simp only [iunlock, bind_eq, wp_bind, wp_panicIf, hlock, h1, wp_change]
  exact ⟨by simp, fun _ => hQ⟩

end Vol

end Xv6.Fs
