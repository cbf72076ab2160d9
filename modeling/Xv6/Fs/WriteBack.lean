import Xv6.Fs.Truncate

/-!
# Writing inodes back and reading them again

`iupdate` copies an inode field by field to its place on disk and `ilock` copies it back.  What
happens in between may be anything that is not about this inode: other inodes are loaded, changed,
written back and allocated, blocks are written, and the slot of the inode is dropped and taken for
another one.

* `OnlyDinode` — nothing on disk but one `Dinode` has changed, byte by byte.
* `Elsewhere` — what may happen in between.
* `inode_round_trip` — the inode comes back as it was.
-/

namespace Xv6.Fs

open Lib Prog

/-! ## Bytes of an inode block -/

namespace Block

theorem byte_setWord_of_ne (b : Block) {j o : ℕ} (v : ℕ) (ho : o < 4 * j ∨ 4 * j + 4 ≤ o) :
    (b.setWord j v).byte o = b.byte o := by
  unfold setWord
  by_cases h : o < BSIZE
  · rw [byte_splice h, Lib.splice, if_neg (by omega)]
  · rw [Block.beyond _ o (by omega), Block.beyond _ o (by omega)]

theorem byte_putWords_of_ne (b : Block) (k : ℕ) (l : List ℕ) {o : ℕ}
    (ho : o < 4 * k ∨ 4 * (k + l.length) ≤ o) : (b.putWords k l).byte o = b.byte o := by
  induction l generalizing b k with
  | nil => simp [putWords]
  | cons v l ih =>
    simp only [List.length_cons] at ho
    rw [putWords, ih _ _ (by omega), byte_setWord_of_ne _ _ (by omega)]

end Block

/-- A `Dinode` has sixty-four bytes. -/
theorem byte_putDinode_of_ne {k o : ℕ} (h : o / 64 ≠ k) (x : Dinode) (d : Block) :
    (putDinode k x d).byte o = d.byte o := by
  apply Block.byte_putWords_of_ne
  simp only [Dinode.length_words]
  omega

namespace Vol

variable {τ : Type} {s s' t : Vol τ} {E : String → Prop} {me : τ} {ip jp : Fin NINODE} {i : ℕ}
  {d : Dinode}

/-- On disk only the bytes of inode `i` have changed. -/
structure OnlyDinode (i : ℕ) (s s' : Vol τ) : Prop where
  sb : s'.sb = s.sb
  blk : ∀ b, b ≠ iblock i s.sb → s'.blk b = s.blk b
  byte : ∀ o, o / 64 ≠ i % IPB → (s'.blk (iblock i s.sb)).byte o = (s.blk (iblock i s.sb)).byte o

theorem onlyDinode_stored (s : Vol τ) (i : ℕ) (d : Dinode) : OnlyDinode i s (s.stored i d) where
  sb := rfl
  blk b hb := blk_setBlk_of_ne hb _
  byte o ho := by
    unfold stored
    rw [blk_setBlk_self]
    exact byte_putDinode_of_ne ho _ _

theorem OnlyDinode.congr (h : OnlyDinode i s s') (hblk : t.blk = s'.blk) (hsb : t.sb = s'.sb) :
    OnlyDinode i s t where
  sb := hsb.trans h.sb
  blk b hb := by rw [hblk, h.blk b hb]
  byte o ho := by rw [hblk, h.byte o ho]

/-! ## What may happen in between -/

/-- The last `iput` of an inode without links, which frees it. -/
def LastPut (s : Vol τ) (ip : Fin NINODE) : Prop :=
  (s.inode ip).ref = 1 ∧ (s.inode ip).valid = true ∧ (s.inode ip).d.nlink = 0

/-- Anything that is not about inode `i`, or that only takes and drops references to it. -/
inductive Elsewhere (i : ℕ) : Vol τ → Vol τ → Prop
  | iget {s s' : Vol τ} {j : ℕ} {ip : Fin NINODE} : (iget j).run s = .done ip s' → Elsewhere i s s'
  | idup {s s' : Vol τ} {ip jp : Fin NINODE} : 0 < (s.inode ip).ref →
    (idup ip).run s = .done jp s' →
      Elsewhere i s s'
  | ilock {s s' : Vol τ} {me : τ} {ip : Fin NINODE} : (s.inode ip).lock = none →
      s.held (iblock (s.num ip) s.sb) = none → (ilock me ip).run s = .done () s' → Elsewhere i s s'
  | iunlock {s s' : Vol τ} {ip : Fin NINODE} : (iunlock ip).run s = .done () s' →
    Elsewhere i s s'
  | iput {s s' : Vol τ} {me : τ} {ip : Fin NINODE} : ¬s.LastPut ip →
    (iput me ip).run s = .done () s' →
      Elsewhere i s s'
  | iupdate {s s' : Vol τ} {me : τ} {ip : Fin NINODE} : s.num ip ≠ i →
      s.held (iblock (s.num ip) s.sb) = none → (iupdate me ip).run s = .done () s' →
        Elsewhere i s s'
  | ialloc {s s' : Vol τ} {me : τ} {itype : UInt16} {ip : Fin NINODE} : (∀ b, s.held b = none) →
      (ialloc me itype).run s = .done ip s' → Elsewhere i s s'
  /-- A slot for another inode is changed in any way, as by `writei`, `itrunc` and the last
  `iput`. -/
  | entry {s : Vol τ} (ip : Fin NINODE) (x : Inode τ) : s.num ip ≠ i → x.inum ≠ i →
      Elsewhere i s (s.modInode ip fun _ => x)
  /-- A block is written, whether of data or of the free map. -/
  | block {s : Vol τ} (b : ℕ) (d : Block) : b ≠ iblock i s.sb → Elsewhere i s (s.setBlk b d)
  /-- Buffers are locked and released, transactions begin and end, files are opened and closed. -/
  | rest {s : Vol τ} (held : ℕ → Option τ) (log : Log) (file : Fin NFILE → File) (passed : List ℕ) :
      Elsewhere i s { s with held := held, log := log, file := file, passed := passed }

/-- The copy on disk and every valid copy in the cache are `d`. -/
structure Kept (i : ℕ) (d : Dinode) (s : Vol τ) : Prop where
  disk : s.disk i = d
  loaded : ∀ jp, s.Loaded jp → s.num jp = i → (s.inode jp).d = d

/-- The disk has not changed, and one slot has: it is not a valid copy of the inode, or it was one
before, or it is `d`. -/
theorem Kept.slot (h : Kept i d s) (hdisk : s'.disk i = s.disk i) (hother : ∀ jp, jp ≠ ip →
    s'.inode jp = s.inode jp)
    (hself : s'.Loaded ip → s'.num ip = i →
      (s.Loaded ip ∧ s.num ip = i ∧ (s'.inode ip).d = (s.inode ip).d) ∨ (s'.inode ip).d = d) : Kept
        i d s' where
  disk := hdisk.trans h.disk
  loaded jp hl hn := by
    by_cases hj : jp = ip
    · subst hj
      rcases hself hl hn with ⟨hl₀, hn₀, hd⟩ | hd
      · rw [hd, h.loaded jp hl₀ hn₀]
      · exact hd
    · rw [Loaded, hother jp hj] at hl
      rw [num, hother jp hj] at hn
      rw [hother jp hj]
      exact h.loaded jp hl hn

theorem Kept.modInode (h : Kept i d s) {f : Inode τ → Inode τ}
    (hself : 0 < (f (s.inode ip)).ref → (f (s.inode ip)).valid = true → (f (s.inode ip)).inum = i →
      (s.Loaded ip ∧ s.num ip = i ∧ (f (s.inode ip)).d = (s.inode ip).d) ∨ (f (s.inode ip)).d = d) :
    Kept i d (s.modInode ip f) := by
  refine h.slot rfl (fun jp hj => inode_modInode_of_ne hj f) fun hl hn => ?_
  rw [Loaded, inode_modInode_self] at hl
  rw [num, inode_modInode_self] at hn
  rw [inode_modInode_self]
  exact hself hl.1 hl.2 hn

theorem Kept.got (h : Kept i d s) {j : ℕ} (hg : Got j ip s s') : Kept i d s' := by
  rw [hg.only]
  refine h.modInode fun hr hv hn => Or.inl ?_
  rcases Nat.eq_zero_or_pos (s.inode ip).ref with h0 | h0
  · simp [(hg.miss h0).2] at hv
  · obtain ⟨-, hin⟩ := hg.hit h0
    rw [hin] at hv hn ⊢
    exact ⟨⟨h0, hv⟩, hn, rfl⟩

theorem Kept.loading (h : Kept i d s) (hr : 0 < (s.inode ip).ref) (me : τ) :
    Kept i d (s.loading me ip) := by
  refine h.modInode fun _ _ hn => ?_
  split_ifs at hn ⊢ with hv
  · exact .inl ⟨⟨hr, hv⟩, hn, rfl⟩
  · refine .inr ?_
    change s.disk (s.inode ip).inum = d
    rw [show (s.inode ip).inum = i from hn, h.disk]

theorem Kept.d_loading (h : Kept i d s) (hr : 0 < (s.inode ip).ref) (hn : s.num ip = i) (me : τ) :
    ((s.loading me ip).inode ip).d = d := by
  refine (h.loading hr me).loaded ip ?_ ?_
  · rw [Loaded, Vol.loading, inode_modInode_self]
    split_ifs with hv
    · exact ⟨hr, hv⟩
    · exact ⟨hr, rfl⟩
  · rw [num, Vol.loading, inode_modInode_self]
    split_ifs <;> exact hn

theorem Kept.stored (h : Kept i d s) {j : ℕ} (hj : j ≠ i) (d' : Dinode) :
    Kept i d (s.stored j d') where
  disk := by rw [disk_stored, if_neg hj.symm, h.disk]
  loaded := h.loaded

theorem Kept.logged (h : Kept i d s) (b : ℕ) : Kept i d (s.logged b) := ⟨h.disk, h.loaded⟩

theorem Kept.step (h : Kept i d s) (hd : d.itype ≠ 0) (hs : Elsewhere i s s') : Kept i d s' := by
  cases hs with
  | iget hrun =>
    exact of_wp_of_run (wp_iget (E := anyPanic) _ (Or.inr (Or.inr anyPanic_all))
      fun _ _ hg => h.got hg) hrun
  | idup hr hrun =>
    cases hrun
    exact h.modInode fun _ hv hn => Or.inl ⟨⟨hr, hv⟩, hn, rfl⟩
  | ilock hlock hheld hrun =>
    exact of_wp_of_run (wp_ilock_loading (E := anyPanic) (Q := fun _ s' => Kept i d s')
      (Or.inr anyPanic_all) hlock
      hheld (Or.inr (Or.inr anyPanic_all)) fun hr _ => h.loading hr _) hrun
  | iunlock hrun =>
    refine of_wp_of_run (E := anyPanic) (Q := fun _ s' => Kept i d s') ?_ hrun
    simp only [iunlock, bind_eq, wp_bind, wp_panicIf, wp_change]
    exact ⟨fun _ => trivial, fun _ => h.modInode fun hr hv hn => Or.inl ⟨⟨hr, hv⟩, hn, rfl⟩⟩
  | iput hlast hrun =>
    refine of_wp_of_run (E := anyPanic) (Q := fun _ s' => Kept i d s') ?_ hrun
    simp only [iput, bind_eq, wp_bind, wp_critical, iputSection]
    refine .inl ⟨false, _, if_neg hlast, h.modInode fun hr hv hn => Or.inl ⟨⟨?_, hv⟩, hn, rfl⟩⟩
    exact lt_of_lt_of_le hr (Nat.sub_le _ _)
  | iupdate hne hheld hrun =>
    exact of_wp_of_run (wp_iupdate (E := anyPanic) (F := ∅) (Q := fun _ s' => Kept i d s')
      (Or.inr anyPanic_all)
      hheld ((h.stored hne _).logged _)) hrun
  | ialloc hidle hrun =>
    refine of_wp_of_run (wp_ialloc (E := anyPanic) (F := ∅)
      (Q := fun _ s' => Kept i d s') hidle
      (Or.inr anyPanic_all) _ (Or.inr anyPanic_all) (Or.inr anyPanic_all)
        fun j _ _ h0 ip s' hg => ?_) hrun
    have hj : j ≠ i := by
      rintro rfl
      rw [h.disk] at h0
      exact hd h0
    exact ((h.stored hj _).logged _).got hg
  | entry ip x hne hx => exact h.modInode fun _ _ hn => absurd hn hx
  | block b e hb =>
    refine ⟨?_, h.loaded⟩
    rw [disk_setBlk_of_ne hb.symm, h.disk]
  | rest held log file passed => exact ⟨h.disk, h.loaded⟩

theorem Kept.run (h : Kept i d s) (hd : d.itype ≠ 0)
    (hst : Relation.ReflTransGen (Elsewhere i) s t) : Kept i d t := by
  induction hst with
  | refl => exact h
  | tail _ hs ih => exact ih.step hd hs

/-- After `iupdate` the disk and the cache agree. -/
theorem kept_updated (hs : s.Distinct) (hr : 0 < (s.inode ip).ref) :
    Kept (s.num ip) (s.inode ip).d (s.updated ip) where
  disk := by
    change (s.stored (s.num ip) (s.inode ip).d).disk (s.num ip) = _
    rw [disk_stored, if_pos rfl]
  loaded jp hl hn := by
    rw [hs jp ip hl.1 hr hn]
    rfl

/-! ## The round trip -/

/-- **Inodes are written back and read again.**  In a transaction with room, `iupdate` of any inode
with a type changes on disk the bytes of that `Dinode` and no others; and whatever happens to other
inodes and to the slots of the cache after it, `iget` and `ilock` bring back all fields of the
inode.  `ialloc`, when it returns, has changed the bytes of the `Dinode` it returns and no others,
and that one was free. -/
theorem inode_round_trip (hroom : s.log.Room ∅) (hidle : ∀ b, s.held b = none) (me : τ) :
    (∀ ip, s.Distinct → 0 < (s.inode ip).ref → (s.inode ip).d.itype ≠ 0 →
      ∃ s₁, (iupdate me ip).run s = .done () s₁ ∧ OnlyDinode (s.num ip) s s₁ ∧
        ∀ t, Relation.ReflTransGen (Elsewhere (s.num ip)) s₁ t →
          (∃ kp, (t.inode kp).ref = 0 ∨ t.num kp = s.num ip) →
          ∃ jp t₁, (iget (s.num ip)).run t = .done jp t₁ ∧ ∀ me' : τ, (t₁.inode jp).lock = none →
            t₁.held (iblock (s.num ip) t₁.sb) = none →
            ∃ t₂, (ilock me' jp).run t₁ = .done () t₂ ∧ (t₂.inode jp).d = (s.inode ip).d) ∧
      ∀ itype ip s', (ialloc me itype).run s = .done ip s' →
        0 < s'.num ip ∧ s'.num ip < s.sb.ninodes ∧ (s.disk (s'.num ip)).itype = 0 ∧
          s'.disk (s'.num ip) = { Dinode.zero with itype := itype } ∧
            OnlyDinode (s'.num ip) s s' := by
  refine ⟨fun ip hs hr ht => ?_, fun itype ip s' hrun => ?_⟩
  · have hup : (iupdate me ip).wp noPanic (fun _ s₁ => s₁ = s.updated ip) s :=
      wp_iupdate (Or.inl hroom) (hidle _) rfl
    obtain ⟨⟨⟩, s₁, hrun, rfl⟩ := (wp_noPanic_iff _).1 hup
    refine ⟨_, hrun, (onlyDinode_stored s _ _).congr rfl rfl, fun t hst hslot => ?_⟩
    have hk := (kept_updated hs hr).run ht hst
    have hslot' : (∃ kp, 0 < (t.inode kp).ref ∧ t.num kp = s.num ip) ∨
      (∃ kp, (t.inode kp).ref = 0) ∨
        ∀ msg, noPanic msg := by
      obtain ⟨kp, hkp⟩ := hslot
      rcases Nat.eq_zero_or_pos (t.inode kp).ref with h0 | h0
      · exact .inr (Or.inl ⟨kp, h0⟩)
      · exact .inl ⟨kp, h0, hkp.resolve_left h0.ne'⟩
    obtain ⟨jp, t₁, hget, hg⟩ :=
      (wp_noPanic_iff _).1 (wp_iget (Q := fun jp t₁ => Got (s.num ip) jp t t₁)
      _ hslot' fun _ _ hg => hg)
    refine ⟨jp, t₁, hget, fun me' hlock hheld => ?_⟩
    have hk₁ := hk.got hg
    have hwp : (ilock me' jp).wp noPanic (fun _ t₂ => t₂ = t₁.loading me' jp) t₁ := by
      refine wp_ilock_loading (Or.inl hg.ref) hlock (by rwa [hg.num]) (Or.inr (Or.inl ?_))
        fun _ _ => rfl
      rwa [hg.num, hk₁.disk]
    obtain ⟨⟨⟩, t₂, hrun₂, rfl⟩ := (wp_noPanic_iff _).1 hwp
    exact ⟨_, hrun₂, hk₁.d_loading hg.ref hg.num me'⟩
  · obtain ⟨i, h0, hlt, hfree, hg⟩ := of_wp_of_run (wp_ialloc (E := anyPanic) (F := ∅)
      (Q := fun ip s' => ∃ i, 0 < i ∧ i < s.sb.ninodes ∧ (s.disk i).itype = 0 ∧
        Got i ip (s.claimed i itype) s') hidle
      (Or.inr fun _ => trivial) _ (Or.inr fun _ => trivial) (Or.inr fun _ => trivial)
      fun i h0 hlt hfree ip s' hg => ⟨i, h0, hlt, hfree, hg⟩) hrun
    have hdisk : s'.disk i = (s.claimed i itype).disk i := by rw [disk, disk, hg.frame.1,
      hg.frame.2.1]
    rw [hg.num, hdisk]
    refine ⟨h0, hlt, hfree, ?_, (onlyDinode_stored s i _).congr hg.frame.1 hg.frame.2.1⟩
    change (s.stored i _).disk i = _
    rw [disk_stored, if_pos rfl]

/-- A volume in a transaction, with inode nine in one slot of the cache. -/
def oneInode (ip : Fin NINODE) (d : Dinode) : Vol Unit where
  blk _ := Block.zero
  held _ := none
  log := ⟨2, 30, 1, false, []⟩
  sb := ⟨1000, 941, 200, 30, 2, 32, 58⟩
  inode jp := if jp = ip then ⟨9, 1, none, true, d⟩ else ⟨0, 0, none, false, Dinode.zero⟩
  file _ := ⟨.none, false, false, ip, 0⟩
  passed := []

/-- A file of 77 bytes. -/
def smallFile : Dinode := ⟨2, 0, 0, 1, 77, fun _ => 60⟩

/-- Its inode stored, and the reference to it dropped. -/
def dropped (ip : Fin NINODE) : Vol Unit :=
  ((oneInode ip smallFile).updated ip).modInode ip fun x => { x with ref := x.ref - 1 }

/-- Inode nine is stored and dropped, and its slot goes to inode five: `iget` puts it into another
slot, where `ilock` reads it from the disk. -/
theorem inode_round_trip_nine : ∃ s₁ t t₁ t₂,
    (iupdate () 0).run (oneInode 0 smallFile) = .done () s₁ ∧
    Relation.ReflTransGen (Elsewhere 9) s₁ t ∧ t.num 0 = 5 ∧
    (iget 9).run t = .done 1 t₁ ∧ (t₁.inode 1).valid = false ∧
    (ilock () 1).run t₁ = .done () t₂ ∧ (t₂.inode 1).d = smallFile := by
  have hdist : (oneInode 0 smallFile).Distinct := by
    intro jp kp hj hk _
    simp only [oneInode] at hj hk
    split_ifs at hj hk with h₁ h₂
    · rw [h₁, h₂]
    · simp at hk
    · simp at hj
    · simp at hj
  have hroom : (oneInode 0 smallFile).log.Room ∅ := ⟨List.nodup_nil, by decide, rfl, by decide⟩
  obtain ⟨s₁, hrun, -, hback⟩ :=
    (inode_round_trip hroom (fun _ => rfl) ()).1 0 hdist (by decide) (by decide)
  obtain rfl : s₁ = (oneInode 0 smallFile).updated 0 :=
    of_wp_of_run (wp_iupdate (E := noPanic)
      (Q := fun _ s' => s' = (oneInode 0 smallFile).updated 0) (Or.inl hroom) rfl rfl) hrun
  have hdrop : (iput () 0).run ((oneInode 0 smallFile).updated 0) = .done () (dropped 0) := rfl
  have htake : (iget 5).run (dropped 0) =
    .done 0 ((dropped 0).modInode 0 fun x => { x with inum := 5, ref := 1, valid := false }) := rfl
  have hlast : ¬((oneInode 0 smallFile).updated 0).LastPut 0 := by
    unfold LastPut
    decide
  have hpath : Relation.ReflTransGen (Elsewhere 9) ((oneInode 0 smallFile).updated 0) _ :=
    .tail (.single (.iput hlast hdrop)) (.iget htake)
  obtain ⟨jp, t₁, hget, hlock⟩ := hback _ hpath ⟨1, Or.inl rfl⟩
  cases hget
  obtain ⟨t₂, hload, hd⟩ := hlock () rfl rfl
  exact ⟨_, _, _, t₂, hrun, hpath, rfl, rfl, rfl, hload, hd⟩

end Vol

end Xv6.Fs
