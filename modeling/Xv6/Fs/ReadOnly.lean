import Xv6.Fs.ByteArray
import Xv6.Fs.Truncate

/-!
# Reading never allocates

`readi` uses the `bmap` of `writei`, which allocates a block where none is mapped.
It is harmless because no file ever has a hole, a fact that every operation keeps
and `mkfs` establishes.

* `Tidy` — the invariant: no holes, and the copies of an inode in memory and on
  disk describe the same file.
* `Step` — the calls of the file system, by whoever holds the inode's lock.
* `readi_leaves_volume` — from the image of `mkfs` on, reads change nothing.
-/

namespace Xv6.Fs

open Lib Prog

namespace Vol

variable {τ : Type} {s s' t : Vol τ} {me : τ} {ip : Fin NINODE}

/-! ## The invariant -/

/-- What holds between calls. -/
structure Tidy (s : Vol τ) : Prop where
  /-- The volume is consistent. -/
  sound : Sound s
  /-- No buffer is held. -/
  idle : ∀ x, s.held x = none
  /-- No file has holes. -/
  mapped : s.AllMapped
  /-- The copies in memory and on disk describe the same file. -/
  synced : ∀ jp, s.Loaded jp → SameFile (s.disk (s.num jp)) (s.inode jp).d
  /-- A loaded inode is in use. -/
  typed : ∀ jp, s.Loaded jp → (s.inode jp).d.itype ≠ 0
  /-- A locked inode is loaded. -/
  locked : ∀ jp, (s.inode jp).lock ≠ none → s.Loaded jp

theorem isDev_congr {d d' : Dinode} (h : d.itype = d'.itype) : d.isDev = d'.isDev := by
  rw [Dinode.isDev, Dinode.isDev, h]

theorem AllMapped.of_sameFile (h : s.AllMapped) (hblk : s'.blk = s.blk) (hsb : s'.sb = s.sb)
    (hd : ∀ i, i < s.sb.ninodes → SameFile (s'.dinode i) (s.dinode i)) : s'.AllMapped := by
  intro i hi hdev k hk
  have hlt : i < s.sb.ninodes := hsb ▸ hi.1
  rw [(hd i hlt).size] at hk
  rw [blockAt, refs_of_sameFile hblk hsb hd]
  exact h i ⟨hlt, (hd i hlt).itype ▸ hi.2⟩ ((isDev_congr (hd i hlt).itype).symm.trans hdev) k hk

/-- A change to the inode cache that leaves every file alone. -/
theorem Tidy.of_cache (h : Tidy s) (hs : Sound s') (hblk : s'.blk = s.blk) (hsb : s'.sb = s.sb)
    (hheld : s'.held = s.held) (hd : ∀ i, i < s.sb.ninodes → SameFile (s'.dinode i) (s.dinode i))
    (hslot : ∀ jp, s'.Loaded jp → SameFile (s.disk (s'.num jp)) (s'.inode jp).d ∧
      (s'.inode jp).d.itype ≠ 0)
    (hlock : ∀ jp, (s'.inode jp).lock ≠ none → s'.Loaded jp) : Tidy s' where
  sound := hs
  idle x := by rw [hheld]; exact h.idle x
  mapped := h.mapped.of_sameFile hblk hsb hd
  synced jp hj := by
    have := (hslot jp hj).1
    rwa [show s.disk (s'.num jp) = s'.disk (s'.num jp) by rw [disk, disk, hblk, hsb]] at this
  typed jp hj := (hslot jp hj).2
  locked := hlock

/-- An entry of the inode cache that is as it was. -/
theorem Tidy.slot (h : Tidy s) {jp : Fin NINODE} (hin : s'.inode jp = s.inode jp)
    (hl : s'.Loaded jp) :
      SameFile (s.disk (s'.num jp)) (s'.inode jp).d ∧ (s'.inode jp).d.itype ≠ 0 := by
  rw [Loaded, hin] at hl
  rw [num, hin]
  exact ⟨h.synced jp hl, h.typed jp hl⟩

theorem Tidy.lock_of_eq (h : Tidy s) {jp : Fin NINODE} (hin : s'.inode jp = s.inode jp)
    (hne : (s'.inode jp).lock ≠ none) : s'.Loaded jp := by
  rw [hin] at hne
  rw [Loaded, hin]
  exact h.locked jp hne

theorem Tidy.relog (h : Tidy s) (lg : Log) : Tidy { s with log := lg } :=
  h.of_cache (h.sound.relog lg) rfl rfl rfl (fun _ _ => .of_eq rfl)
    (fun _ hj => h.slot rfl hj) fun _ hj => h.lock_of_eq rfl hj

/-! ## The inode cache -/

theorem Tidy.got {i : ℕ} (h : Tidy s) (hg : Got i ip s s') (hi : i < s.sb.ninodes) : Tidy s' := by
  obtain ⟨hblk, hsb, hheld, -⟩ := hg.frame
  obtain ⟨hs, -⟩ := hg.sound h.sound hi
  refine h.of_cache hs hblk hsb hheld (fun j _ => .of_eq (hg.dinode h.sound.slots j))
    (fun jp hj => ?_) fun jp hj => ?_
  · by_cases hjp : jp = ip
    · subst hjp
      rcases Nat.eq_zero_or_pos (s.inode jp).ref with h0 | h0
      · rw [Loaded, (hg.miss h0).2] at hj
        exact Bool.noConfusion hj.2
      · obtain ⟨-, hin⟩ := hg.hit h0
        rw [Loaded, hin] at hj
        rw [num, hin]
        exact ⟨h.synced jp ⟨h0, hj.2⟩, h.typed jp ⟨h0, hj.2⟩⟩
    · exact h.slot (hg.of_ne hjp) hj
  · by_cases hjp : jp = ip
    · subst hjp
      rw [hg.lock] at hj
      have hl := h.locked jp hj
      rw [Loaded, (hg.hit hl.1).2]
      exact ⟨Nat.succ_pos _, hl.2⟩
    · exact h.lock_of_eq (hg.of_ne hjp) hj

/-- A change to one entry in use that leaves its file alone. -/
theorem Tidy.modInode (h : Tidy s) {f : Inode τ → Inode τ} (hr : 0 < (s.inode ip).ref)
    (hnum : (f (s.inode ip)).inum = s.num ip)
    (hd : SameFile ((s.modInode ip f).dinode (s.num ip)) (s.dinode (s.num ip)))
    (hslot : 0 < (f (s.inode ip)).ref → (f (s.inode ip)).valid = true →
      SameFile (s.disk (s.num ip)) (f (s.inode ip)).d ∧ (f (s.inode ip)).d.itype ≠ 0)
    (hlock : (f (s.inode ip)).lock ≠ none →
      0 < (f (s.inode ip)).ref ∧ (f (s.inode ip)).valid = true) : Tidy (s.modInode ip f) := by
  have hself := inode_modInode_self (s := s) ip f
  refine h.of_cache (h.sound.modInode hr hnum hd).1 rfl rfl rfl
    (fun i _ => h.sound.sameFile_modInode hr hnum hd i) (fun jp hj => ?_) fun jp hj => ?_
  · by_cases hjp : jp = ip
    · subst hjp
      rw [Loaded, hself] at hj
      rw [num, hself, hnum]
      exact hslot hj.1 hj.2
    · exact h.slot (inode_modInode_of_ne hjp _) hj
  · by_cases hjp : jp = ip
    · subst hjp
      rw [hself] at hj
      rw [Loaded, hself]
      exact hlock hj
    · exact h.lock_of_eq (inode_modInode_of_ne hjp _) hj

theorem Tidy.locked_of (h : Tidy s) (hr : 0 < (s.inode ip).ref)
    (ht : (s.inode ip).valid = false → (s.dinode (s.num ip)).itype ≠ 0) (me : τ) :
    Tidy (s.locked me ip) := by
  obtain ⟨hs, -, hl⟩ := h.sound.locked hr me
  have hself : (s.locked me ip).dinode (s.num ip) = s.dinode (s.num ip) := by
    have := hs.dinode_num hl
    rwa [num, inode_locked] at this
  refine h.modInode hr rfl (.of_eq hself) (fun _ _ => ?_) fun _ => ⟨hr, rfl⟩
  change SameFile _ (s.dinode (s.num ip)) ∧ (s.dinode (s.num ip)).itype ≠ 0
  cases hv : (s.inode ip).valid with
  | true =>
    rw [h.sound.dinode_num ⟨hr, hv⟩]
    exact ⟨h.synced ip ⟨hr, hv⟩, h.typed ip ⟨hr, hv⟩⟩
  | false => exact ⟨.of_eq (h.sound.slots.dinode_of_invalid hr hv).symm, ht hv⟩

theorem Tidy.unlocked (h : Tidy s) (hr : 0 < (s.inode ip).ref) : Tidy (s.unlocked ip) :=
  h.modInode hr rfl (.of_eq (dinode_unlocked s ip _))
    (fun hr hv => ⟨h.synced ip ⟨hr, hv⟩, h.typed ip ⟨hr, hv⟩⟩) fun hne => absurd rfl hne

/-- A reference more or less, as long as the copy on disk is as good. -/
theorem Tidy.setRef (h : Tidy s) (hr : 0 < (s.inode ip).ref) {n : ℕ}
    (hn : n = 0 → (s.inode ip).lock = none) :
    Tidy (s.modInode ip fun x => { x with ref := n }) := by
  have hslots := h.sound.slots
  have hdist := hslots.modInode (f := fun x => { x with ref := n }) (fun _ => hr) rfl
  have hself := inode_modInode_self (s := s) ip fun x => { x with ref := n }
  refine h.modInode hr rfl ?_ (fun _ hv => ⟨h.synced ip ⟨hr, hv⟩, h.typed ip ⟨hr, hv⟩⟩)
    fun hne => ?_
  · have hnum : (s.modInode ip fun x => { x with ref := n }).num ip = s.num ip := by rw [num, hself]
    rcases Nat.eq_zero_or_pos n with h0 | h0
    · have hnone : (s.modInode ip fun x => { x with ref := n }).cached (s.num ip) = none := by
        refine cached_eq_none fun jp hj he => ?_
        by_cases hjp : jp = ip
        · rw [hjp, Loaded, hself] at hj
          exact absurd hj.1 (by change ¬0 < n; omega)
        · rw [Loaded, inode_modInode_of_ne hjp] at hj
          rw [num, inode_modInode_of_ne hjp] at he
          exact hjp (hslots jp ip hj.1 hr he)
      rw [dinode, hnone]
      cases hv : (s.inode ip).valid with
      | true =>
        rw [hslots.dinode_num ⟨hr, hv⟩]
        exact h.synced ip ⟨hr, hv⟩
      | false => exact .of_eq (hslots.dinode_of_invalid hr hv).symm
    · refine .of_eq ?_
      have hr' : 0 < ((s.modInode ip fun x => { x with ref := n }).inode ip).ref := by
        rw [hself]
        exact h0
      cases hv : (s.inode ip).valid with
      | true =>
        have := hdist.dinode_num ⟨hr', by rw [hself]; exact hv⟩
        rw [hnum, hself] at this
        rw [this, hslots.dinode_num ⟨hr, hv⟩]
      | false =>
        have := hdist.dinode_of_invalid hr' (by rw [hself]; exact hv)
        rw [hnum] at this
        rw [this, hslots.dinode_of_invalid hr hv]
        rfl
  · rcases Nat.eq_zero_or_pos n with h0 | h0
    · exact absurd (hn h0) hne
    · exact ⟨h0, (h.locked ip hne).2⟩

/-- Links and device numbers may change. -/
theorem Tidy.setFields (h : Tidy s) (hl : s.Loaded ip) {f : Dinode → Dinode}
    (hf : SameFile (f (s.inode ip).d) (s.inode ip).d) : Tidy (s.modDinode ip f) := by
  refine h.modInode hl.1 rfl ?_ (fun _ _ => ?_) fun _ => hl
  · have := h.sound.dinode_modDinode_self hl f
    change SameFile ((s.modDinode ip f).dinode (s.num ip)) _
    rw [this, h.sound.dinode_num hl]
    exact hf
  · have hs := h.synced ip hl
    exact ⟨⟨hs.itype.trans hf.itype.symm, hs.size.trans hf.size.symm, hs.addrs.trans hf.addrs.symm⟩,
      hf.itype ▸ h.typed ip hl⟩

/-! ## Work on one file -/

/-- Work on one file that leaves it without holes and its copies in step. -/
theorem Tidy.framed (h : Tidy s) (hl : s.Loaded ip) (hf : Framed ip s s')
    (hholes : (s.inode ip).d.isDev = false → s'.NoHoles (s.num ip))
    (hdisk : SameFile (s'.disk (s.num ip)) (s'.inode ip).d) : Tidy s' := by
  obtain ⟨n, a, hin⟩ := hf.inode
  have hself := hf.sound.dinode_num (hf.loaded hl)
  rw [hf.num] at hself
  refine
    { sound := hf.sound
      idle := fun x => by rw [hf.held]; exact h.idle x
      mapped := fun i hi hdev => ?_
      synced := fun jp hj => ?_
      typed := fun jp hj => ?_
      locked := fun jp hj => ?_ }
  · by_cases hi' : i = s.num ip
    · subst hi'
      exact hholes ((isDev_congr (by rw [hself, hf.itype])).trans hdev)
    · have hlt : i < s.sb.ninodes := hf.sb ▸ hi.1
      have hd := hf.dinode hi' hlt
      exact hf.noHoles hi' hlt (h.mapped i ⟨hlt, hd ▸ hi.2⟩ (hd ▸ hdev))
  · by_cases hjp : jp = ip
    · subst hjp
      rw [hf.num]
      exact hdisk
    · rw [Loaded, hf.slots jp hjp] at hj
      have hne : s.num jp ≠ s.num ip := fun he => hjp (h.sound.slots jp ip hj.1 hl.1 he)
      rw [num, hf.slots jp hjp]
      change SameFile (s'.disk (s.num jp)) _
      rw [hf.disk _ (h.sound.inums jp hj.1) hne]
      exact h.synced jp hj
  · by_cases hjp : jp = ip
    · subst hjp
      rw [hf.itype]
      exact h.typed jp hl
    · rw [Loaded, hf.slots jp hjp] at hj
      rw [hf.slots jp hjp]
      exact h.typed jp hj
  · by_cases hjp : jp = ip
    · subst hjp
      exact hf.loaded hl
    · exact h.lock_of_eq (hf.slots jp hjp) hj

/-- A range within a file without holes needs no new block. -/
theorem NoHoles.newBlocks {i off n : ℕ} (h : s.NoHoles i)
    (hn : n = 0 ∨ off + n ≤ (s.dinode i).size.toNat) : s.newBlocks i (span off n) = 0 := by
  have hmap : ∀ k ∈ span off n, s.blockAt i k ≠ 0 := by
    rcases hn with rfl | hn
    · intro k hk
      rw [span_zero] at hk
      exact absurd hk List.not_mem_nil
    · exact fun k hk => h.of_mem_span hn hk
  rw [Vol.newBlocks, if_neg, List.countP_eq_zero.2]
  · intro k hk
    simpa using hmap k hk
  · rintro ⟨⟨k, hk, hge⟩, h0⟩
    exact hmap k hk (blockAt_of_indirectOf h0 hge)

theorem Tidy.overwritten (h : Tidy s) (hl : s.Loaded ip) (hdev : (s.inode ip).d.isDev = false)
    {src : ℕ → UInt8} {off n : ℕ} (hoff : off ≤ (s.inode ip).d.size.toNat)
    (ho : Overwritten ip src off n s s') : Tidy s' := by
  have hd := h.sound.dinode_num hl
  have hholes := h.mapped _ ((h.sound.inUse_num hl).2 (h.typed ip hl)) (by rw [hd]; exact hdev)
  refine h.framed hl ho.framed (fun _ => ?_) ?_
  · have := ho.noHoles h.sound hl hoff hholes
    rwa [ho.framed.num] at this
  · by_cases he : s.Extends ip off n
    · exact .of_eq (ho.disk_of_extends he)
    · obtain ⟨hdisk, hsame⟩ := ho.of_not_extends he
      rw [hdisk, hsame (hholes.newBlocks ?_)]
      · exact h.synced ip hl
      · rw [hd]
        rw [Extends] at he
        omega

theorem Tidy.truncated (h : Tidy s) (hl : s.Loaded ip) (ht : Truncated ip s s') : Tidy s' := by
  refine h.framed hl ht.framed (fun _ k hk => ?_) (.of_eq ht.disk)
  have hself := ht.framed.sound.dinode_num (ht.framed.loaded hl)
  rw [ht.framed.num] at hself
  rw [hself, ht.size] at hk
  exact absurd hk (Nat.not_lt_zero _)

theorem Tidy.updated (h : Tidy s) (hl : s.Loaded ip) : Tidy (s.updated ip) := by
  obtain ⟨hf, hrefs, -, hdisk, -⟩ := h.sound.updated hl
  have hself := hf.sound.dinode_num (hf.loaded hl)
  rw [hf.num] at hself
  refine h.framed hl hf (fun hdev k hk => ?_) (.of_eq hdisk)
  have hd := h.sound.dinode_num hl
  rw [hself] at hk
  rw [blockAt, hrefs]
  exact h.mapped _ ((h.sound.inUse_num hl).2 (h.typed ip hl)) (by rw [hd]; exact hdev) k
    (by rw [hd]; exact hk)

/-! ## Inodes taken and given back -/

theorem Tidy.claimed (h : Tidy s) {i : ℕ} (hi : i < s.sb.ninodes) (h0 : (s.disk i).itype = 0)
    (itype : UInt16) : Tidy (s.claimed i itype) := by
  have hlt := h.sound.wf.inode_lt i hi
  have hnone : s.cached i = none := by
    refine cached_eq_none fun jp hj he => h.typed jp hj ?_
    rw [← (h.synced jp hj).itype, he, h0]
  have hfree : ¬s.InUse i := fun hu => hu.2 (by rw [dinode, hnone]; exact h0)
  have hd : ∀ j, ({ Dinode.zero with itype := itype } : Dinode).addr j = 0 := fun _ => rfl
  have hdin := dinode_stored hnone { Dinode.zero with itype := itype }
  refine
    { sound := (h.sound.stored hlt hnone hfree hd).logged _
      idle := h.idle
      mapped := fun j hj hdev k hk => ?_
      synced := fun jp hj => ?_
      typed := h.typed
      locked := h.locked }
  · change k * BSIZE < ((s.stored i { Dinode.zero with itype := itype }).dinode j).size.toNat at hk
    by_cases hji : j = i
    · rw [hdin, if_pos hji] at hk
      exact absurd hk (Nat.not_lt_zero _)
    · rw [hdin, if_neg hji] at hk
      change j < s.sb.ninodes ∧
        ((s.stored i { Dinode.zero with itype := itype }).dinode j).itype ≠ 0 at hj
      change ((s.stored i { Dinode.zero with itype := itype }).dinode j).isDev = false at hdev
      rw [hdin, if_neg hji] at hj hdev
      change (s.stored i { Dinode.zero with itype := itype }).blockAt j k ≠ 0
      rw [blockAt, h.sound.refs_stored hlt hnone hfree hd]
      exact h.mapped j hj hdev k hk
  · change SameFile ((s.stored i { Dinode.zero with itype := itype }).disk (s.num jp))
      (s.inode jp).d
    rw [disk_stored, if_neg]
    · exact h.synced jp hj
    · rintro rfl
      exact h.typed jp hj ((h.synced jp hj).itype ▸ h0)

/-- An entry given up once the copy on disk is its copy. -/
theorem Sound.giveUp (h : Sound s) (hl : s.Loaded ip)
    (hdisk : s.disk (s.num ip) = (s.inode ip).d) :
    Sound (s.modInode ip fun x => { x with valid := false, ref := x.ref - 1 }) ∧
      (s.modInode ip fun x => { x with valid := false, ref := x.ref - 1 }).refs = s.refs ∧
      ∀ i, SameFile ((s.modInode ip fun x => { x with valid := false, ref := x.ref - 1 }).dinode i)
        (s.dinode i) := by
  have hself := inode_modInode_self (s := s) ip fun x => { x with valid := false, ref := x.ref - 1 }
  have hnone : (s.modInode ip fun x => { x with valid := false, ref := x.ref - 1 }).cached
      (s.num ip) = none := by
    refine cached_eq_none fun jp hj he => ?_
    by_cases hjp : jp = ip
    · rw [hjp, Loaded, hself] at hj
      exact Bool.noConfusion hj.2
    · rw [Loaded, inode_modInode_of_ne hjp] at hj
      rw [num, inode_modInode_of_ne hjp] at he
      exact hjp (h.slots jp ip hj.1 hl.1 he)
  have hd : SameFile ((s.modInode ip fun x => { x with valid := false, ref := x.ref - 1 }).dinode
      (s.num ip)) (s.dinode (s.num ip)) := by
    refine .of_eq ?_
    rw [dinode, hnone, h.dinode_num hl, ← hdisk]
    rfl
  exact ⟨(h.modInode hl.1 rfl hd).1, (h.modInode hl.1 rfl hd).2, h.sameFile_modInode hl.1 rfl hd⟩

theorem Tidy.disposed (h : Tidy s) (hl : s.Loaded ip) (hlock : (s.inode ip).lock = none) :
    Tidy (s.disposed ip) := by
  -- the inode's type is cleared in memory, then on disk, then its entry is given up
  have hs₁ : Sound (s.modDinode ip fun d => { d with itype := 0 }) :=
    h.sound.setFields hl (Or.inr rfl) rfl
  have hself₁ := inode_modDinode_self (s := s) ip fun d => { d with itype := 0 }
  have hl₁ : (s.modDinode ip fun d => { d with itype := 0 }).Loaded ip := by
    rw [Loaded, hself₁]
    exact hl
  have hnum₁ : (s.modDinode ip fun d => { d with itype := 0 }).num ip = s.num ip := by
    rw [num, hself₁]
  obtain ⟨hf, hrefs₂, -, hdisk₂, -⟩ := hs₁.updated hl₁
  have hl₂ := hf.loaded hl₁
  have hnum₂ := hf.num.trans hnum₁
  have hin₂ : ((s.modDinode ip fun d => { d with itype := 0 }).updated ip).inode ip =
      { s.inode ip with d := { (s.inode ip).d with itype := 0 } } := hself₁
  obtain ⟨hs₃, hrefs₃, hd₃⟩ := hf.sound.giveUp hl₂
    (by rw [hnum₂, ← hnum₁, hdisk₂]; rfl)
  have hself₃ : (s.disposed ip).inode ip = { s.inode ip with
      d := { (s.inode ip).d with itype := 0 }, valid := false, ref := (s.inode ip).ref - 1 } := by
    rw [Vol.disposed, inode_modInode_self, hin₂]
  have hother : ∀ jp, jp ≠ ip → (s.disposed ip).inode jp = s.inode jp := fun jp hj => by
    rw [Vol.disposed, inode_modInode_of_ne hj, hf.slots jp hj, inode_modDinode_of_ne hj]
  have hdin : ∀ i, i ≠ s.num ip → i < s.sb.ninodes →
      SameFile ((s.disposed ip).dinode i) (s.dinode i) := fun i hi hlt => by
    have := hd₃ i
    rwa [hf.dinode (by rw [hnum₁]; exact hi) hlt, dinode_modDinode_of_ne hi] at this
  have hfree : ¬(s.disposed ip).InUse (s.num ip) := fun hu => by
    have := (hd₃ (s.num ip)).itype
    rw [← hnum₂, hf.sound.dinode_num hl₂, hin₂, hnum₂] at this
    exact hu.2 this
  refine
    { sound := hs₃
      idle := h.idle
      mapped := fun i hi hdev k hk => ?_
      synced := fun jp hj => ?_
      typed := fun jp hj => ?_
      locked := fun jp hj => ?_ }
  · have hne : i ≠ s.num ip := by
      rintro rfl
      exact hfree hi
    have hsame := hdin i hne hi.1
    rw [hsame.size] at hk
    have hat : (s.disposed ip).blockAt i k = s.blockAt i k := by
      have hrefs : ∀ p, (s.disposed ip).refs (i, p) = s.refs (i, p) := fun p => by
        have := congrFun hrefs₃ (i, p)
        rw [hrefs₂, refs_modDinode_of_ne hne] at this
        exact this
      rw [blockAt, blockAt]
      simp only [hrefs]
    rw [hat]
    exact h.mapped i ⟨hi.1, hsame.itype ▸ hi.2⟩ ((isDev_congr hsame.itype).symm.trans hdev) k hk
  · have hjp : jp ≠ ip := by
      rintro rfl
      rw [Loaded, hself₃] at hj
      exact Bool.noConfusion hj.2
    rw [Loaded, hother jp hjp] at hj
    have hne : s.num jp ≠ s.num ip := fun he => hjp (h.sound.slots jp ip hj.1 hl.1 he)
    rw [num, hother jp hjp]
    have := hf.disk (s.num jp) (h.sound.inums jp hj.1) (by rw [hnum₁]; exact hne)
    change SameFile (((s.modDinode ip fun d => { d with itype := 0 }).updated ip).disk (s.num jp)) _
    rw [this]
    exact h.synced jp hj
  · have hjp : jp ≠ ip := by
      rintro rfl
      rw [Loaded, hself₃] at hj
      exact Bool.noConfusion hj.2
    rw [Loaded, hother jp hjp] at hj
    rw [hother jp hjp]
    exact h.typed jp hj
  · have hjp : jp ≠ ip := by
      rintro rfl
      rw [hself₃] at hj
      exact hj hlock
    exact h.lock_of_eq (hother jp hjp) hj

/-! ## Calls of the file system -/

/-- One call that returned, or a change to what the files do not depend on: the log,
and links and device numbers of a locked inode. -/
inductive Step (D : Devsw τ) : Vol τ → Vol τ → Prop
  | log {s : Vol τ} (lg : Log) : Step D s { s with log := lg }
  | fields {s : Vol τ} {me : τ} {ip : Fin NINODE} (major minor nlink : UInt16) :
      (s.inode ip).lock = some me →
      Step D s (s.modDinode ip fun d => { d with major := major, minor := minor, nlink := nlink })
  | iget {s s' : Vol τ} {i : ℕ} {ip : Fin NINODE} :
      i < s.sb.ninodes → (iget i).run s = .done ip s' → Step D s s'
  | idup {s s' : Vol τ} {ip jp : Fin NINODE} :
      0 < (s.inode ip).ref → (idup ip).run s = .done jp s' → Step D s s'
  | ilock {s s' : Vol τ} {me : τ} {ip : Fin NINODE} :
      0 < (s.inode ip).ref → (s.inode ip).lock = none → (ilock me ip).run s = .done () s' →
        Step D s s'
  | iunlock {s s' : Vol τ} {me : τ} {ip : Fin NINODE} :
      (s.inode ip).lock = some me → (iunlock ip).run s = .done () s' → Step D s s'
  | writei {s s' : Vol τ} {me : τ} {ip : Fin NINODE} {src : ℕ → UInt8} {off n : ℕ} {r : ℤ} :
      (s.inode ip).lock = some me → (s.inode ip).d.isDev = false →
      (writei D me ip src off n).run s = .done r s' → Step D s s'
  | itrunc {s s' : Vol τ} {me : τ} {ip : Fin NINODE} :
      (s.inode ip).lock = some me → (itrunc me ip).run s = .done () s' → Step D s s'
  | iupdate {s s' : Vol τ} {me : τ} {ip : Fin NINODE} :
      (s.inode ip).lock = some me → (iupdate me ip).run s = .done () s' → Step D s s'
  | ialloc {s s' : Vol τ} {me : τ} {itype : UInt16} {ip : Fin NINODE} :
      (ialloc me itype).run s = .done ip s' → Step D s s'
  | iput {s s' : Vol τ} {me : τ} {ip : Fin NINODE} :
      0 < (s.inode ip).ref → (s.inode ip).lock = none → (iput me ip).run s = .done () s' →
        Step D s s'

variable {D : Devsw τ}

theorem Tidy.writei (h : Tidy s) (hl : s.Loaded ip) (hdev : (s.inode ip).d.isDev = false)
    {src : ℕ → UInt8} {off n : ℕ} {r : ℤ} (hrun : (writei D me ip src off n).run s = .done r s') :
    Tidy s' := by
  by_cases hbad : s.Refused ip off n
  · refine of_wp_of_run (wp_writei_bad (E := anyPanic) (Q := fun _ s' => Tidy s')
      D hdev src
      hbad h) hrun
  · rw [Refused] at hbad
    have hoff : off ≤ (s.inode ip).d.size.toNat := by omega
    obtain ⟨-, ho, -⟩ :=
      of_wp_of_run (wp_writei (E := anyPanic) D h.sound hl (h.typed ip hl)
      hdev h.idle src hoff (by omega) (Or.inr anyPanic_all) (Or.inr anyPanic_all)
        (Finset.Subset.refl _)) hrun
    exact h.overwritten hl hdev hoff ho

/-- The blocks of the free map, and the block of inode `i`. -/
def mapAndInode (s : Vol τ) (i : ℕ) : Finset ℕ :=
  insert (iblock i s.sb) ((Finset.range s.sb.size).image (bblock · s.sb))

theorem Sound.mapsInto (h : Sound s) (i : ℕ) : s.MapsInto i (s.mapAndInode i) := fun _ hp =>
  Finset.mem_insert_of_mem (Finset.mem_image_of_mem _
    (Finset.mem_range.2 (h.refs.good _ hp).2.1))

/-- Every call leaves the volume tidy. -/
theorem Tidy.step (h : Tidy s) (hstep : Step D s s') : Tidy s' := by
  have hlk : ∀ {me : τ} {ip : Fin NINODE}, (s.inode ip).lock = some me → s.Loaded ip :=
    fun hlock => h.locked _ (by rw [hlock]; exact Option.some_ne_none _)
  cases hstep with
  | log lg => exact h.relog lg
  | fields major minor nlink hlock => exact h.setFields (hlk hlock) ⟨rfl, rfl, rfl⟩
  | iget hi hrun =>
    exact of_wp_of_run (wp_iget (E := anyPanic) _ (Or.inr (Or.inr anyPanic_all))
      fun ip s' hg => h.got hg hi) hrun
  | idup hr hrun =>
    cases hrun
    exact h.setRef hr fun h0 => absurd h0 (Nat.succ_ne_zero _)
  | ilock hr hlock hrun =>
    exact of_wp_of_run (wp_ilock (E := anyPanic) (Q := fun _ s' => Tidy s')
      h.sound hr hlock
      (h.idle _) (Or.inr anyPanic_all) fun ht => h.locked_of hr ht _) hrun
  | iunlock hlock hrun =>
    exact of_wp_of_run (wp_iunlock (E := anyPanic) (Q := fun _ s' => Tidy s')
      (hlk hlock).1
      hlock (h.unlocked (hlk hlock).1)) hrun
  | writei hlock hdev hrun => exact h.writei (hlk hlock) hdev hrun
  | itrunc hlock hrun =>
    have hl := hlk hlock
    obtain ⟨ht, -⟩ := of_wp_of_run (wp_itrunc (E := anyPanic) h.sound hl (h.typed _ hl)
      h.idle (Or.inr anyPanic_all) (h.sound.mapsInto _) (Finset.mem_insert_self _ _)) hrun
    exact h.truncated hl ht
  | iupdate hlock hrun =>
    exact of_wp_of_run (wp_iupdate (E := anyPanic) (F := ∅) (Q := fun _ s' => Tidy s')
      (Or.inr anyPanic_all) (h.idle _) (h.updated (hlk hlock))) hrun
  | ialloc hrun =>
    refine of_wp_of_run (wp_ialloc (E := anyPanic) (F := ∅)
      (Q := fun _ s' => Tidy s') h.idle
      (Or.inr anyPanic_all) _ (Or.inr anyPanic_all) (Or.inr anyPanic_all)
        fun i _ hi h0 ip s' hg => ?_) hrun
    exact (h.claimed hi h0 _).got hg hi
  | iput hr hlock hrun =>
    refine of_wp_of_run (wp_iput (E := anyPanic) (Q := fun _ s' => Tidy s') h.sound hr
      (fun hv => h.typed _ ⟨hr, hv⟩) h.idle (Or.inr anyPanic_all) (h.sound.mapsInto _)
      (Finset.mem_insert_self _ _) (fun _ => h.setRef hr fun _ => hlock) fun _ hl _ t ht => ?_) hrun
    obtain ⟨n, a, hin⟩ := ht.framed.inode
    exact (h.truncated hl ht).disposed (ht.framed.loaded hl) (by rw [hin]; exact hlock)

/-- Reading a file that somebody has locked. -/
theorem Tidy.readi (h : Tidy s) (hlock : (s.inode ip).lock = some me)
    (hdev : (s.inode ip).d.isDev = false) (off n : ℕ) :
    ∃ r, (readi D me ip off n).run s = .done r s := by
  have hl := h.locked ip (by rw [hlock]; exact Option.some_ne_none _)
  have ht := h.typed ip hl
  exact ⟨_, run_readi D h.sound hl ht hdev h.idle (h.mapped _ ((h.sound.inUse_num hl).2 ht)
    (by rw [h.sound.dinode_num hl]; exact hdev)) off n⟩

/-! ## From the image on -/

open Mkfs Mkfs.Tool

theorem tidy_of_built {m : Tool} {host : List UInt8 → Option (List UInt8)}
    {files : List (List UInt8)} (h : Built host files m) : Tidy m.vol where
  sound := h.shows.sound
  idle _ := rfl
  mapped := h.allMapped
  synced _ hj := absurd hj.1 (Nat.lt_irrefl 0)
  typed _ hj := absurd hj.1 (Nat.lt_irrefl 0)
  locked _ hj := absurd rfl hj

/-- **Reading never allocates.**  In every state reached from an image of `mkfs` by
calls of the file system, a file in use has a block for every index below the number
of blocks its size takes, and `readi`, in a transaction or not, leaves the state as
it is. -/
theorem readi_leaves_volume {m : Tool} {host : List UInt8 → Option (List UInt8)}
    {files : List (List UInt8)} (hlen : files.length ≤ 198) (hok : main host files = .ok m)
    (D : Devsw Unit) {s : Vol Unit} (hs : Relation.ReflTransGen (Step D) (mount m) s) :
    (∀ i, s.InUse i → (s.dinode i).isDev = false →
      ∀ k, k < ((s.dinode i).size.toNat + BSIZE - 1) / BSIZE → s.blockAt i k ≠ 0) ∧
      ∀ ip, (s.inode ip).lock = some () → (s.inode ip).d.isDev = false →
        ∀ off n, ∃ r, (readi D () ip off n).run s = .done r s := by
  obtain ⟨m₀, hb, hmount⟩ := main_built hlen hok
  rw [hmount] at hs
  have h : Tidy s := by
    induction hs with
    | refl => exact tidy_of_built hb
    | tail _ hstep ih => exact ih.step hstep
  refine ⟨fun i hi hdev k hk => h.mapped i hi hdev k ?_, fun ip hlock hdev => h.readi hlock hdev⟩
  have hB : BSIZE = 512 := rfl
  rw [hB] at hk ⊢
  omega

/-- The first file of an image, locked outside any transaction and read. -/
theorem readi_leaves_volume_oneFile : ∃ (s : Vol Unit) (ip : Fin NINODE) (r : ℤ × List UInt8),
    (s.inode ip).lock = some () ∧ s.log.outstanding = 0 ∧
      (readi noDev () ip 0 2).run s = .done r s := by
  obtain ⟨m, hok⟩ := main_oneFile
  obtain ⟨m₀, hb, hmount⟩ := main_built (by decide) hok
  obtain ⟨data, -, hc⟩ := hb.file 0 [95, 97] rfl
  have h := tidy_of_built hb
  obtain ⟨ip, s₁, hrun₁, hg⟩ := (wp_noPanic_iff _).1 (wp_iget (E := noPanic) (s := m₀.vol)
    (Q := fun ip s' => Got 2 ip m₀.vol s') 2 (Or.inr (Or.inl ⟨0, rfl⟩)) fun _ _ hg => hg)
  have hlt : 2 < (m₀.vol).sb.ninodes := hb.shows.lt_ninodes (by decide)
  have h₁ := h.got hg hlt
  have hd : s₁.dinode (s₁.num ip) = (m₀.vol).dinode 2 := by rw [hg.num, hg.dinode h.sound.slots]
  have ht : (s₁.dinode (s₁.num ip)).itype = T_FILE := by
    rw [hd]
    exact hc.itype
  have hlock₁ : (s₁.inode ip).lock = none := hg.lock
  have hwp : (ilock () ip).wp noPanic (fun _ s' => s' = s₁.locked () ip) s₁ :=
    wp_ilock h₁.sound hg.ref hlock₁ (h₁.idle _) (Or.inl (by rw [ht]; decide)) fun _ => rfl
  obtain ⟨_, s₂, hrun₂, rfl⟩ := (wp_noPanic_iff _).1 hwp
  have hin : ((s₁.locked () ip).inode ip).lock = some () := by rw [inode_locked]
  have hdev : ((s₁.locked () ip).inode ip).d.isDev = false := by
    rw [inode_locked]
    exact isDev_eq_false ht
  have hreach : Relation.ReflTransGen (Step noDev) (mount m) (s₁.locked () ip) := by
    rw [hmount]
    exact (Relation.ReflTransGen.single (.iget hlt hrun₁)).tail (.ilock hg.ref hlock₁ hrun₂)
  obtain ⟨r, hr⟩ := (readi_leaves_volume (by decide) hok noDev hreach).2 ip hin hdev 0 2
  refine ⟨_, ip, r, hin, ?_, hr⟩
  change s₁.log.outstanding = 0
  rw [hg.frame.2.2.2.1]
  rfl

end Vol

end Xv6.Fs
