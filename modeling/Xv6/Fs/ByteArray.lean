import Xv6.Fs.WriteBudget

/-!
# A file is an array of bytes

* `overwrite` — a list of bytes with a range written over, past its end if need be.
* `file_is_bytes` — `writei` overwrites, `readi` reads back, every other file
  reads as before.
* `Logs` — a call that returns has logged only what the log holds, so that a write
  of more blocks than the log has does not return (`writei_too_big`).
-/

namespace Xv6.Fs

open Lib Prog List

/-- `c` with the bytes `d` written at `off`. -/
def overwrite (c : List UInt8) (off : ℕ) (d : List UInt8) : List UInt8 :=
  c.take off ++ d ++ c.drop (off + d.length)

section Overwrite

variable {c d : List UInt8} {off : ℕ}

theorem length_overwrite (h : off ≤ c.length) :
    (overwrite c off d).length = max c.length (off + d.length) := by
  simp only [overwrite, length_append, length_take, length_drop]
  omega

theorem getElem_overwrite (h : off ≤ c.length) {o : ℕ} (ho : o < (overwrite c off d).length) :
    (overwrite c off d)[o] = if off ≤ o ∧ o < off + d.length then d.getD (o - off) 0
      else c.getD o 0 := by
  have hlen := length_overwrite (d := d) h
  have htake : (c.take off).length = off := by
    rw [length_take]
    omega
  simp only [overwrite, append_assoc]
  by_cases h1 : o < off
  · rw [if_neg (by omega), getElem_append_left (by omega), getElem_take,
      getD_eq_getElem _ _ (by omega)]
  · by_cases h2 : o < off + d.length
    · rw [if_pos ⟨by omega, h2⟩, getElem_append_right (by omega),
        getElem_append_left (by omega), getD_eq_getElem _ _ (by omega)]
      congr 1
      omega
    · rw [if_neg (by omega), getElem_append_right (by omega),
        getElem_append_right (by omega), getElem_drop, getD_eq_getElem _ _ (by omega)]
      congr 1
      omega

end Overwrite

namespace Vol

variable {τ : Type} {s s' : Vol τ} {me : τ} {ip : Fin NINODE} {src : ℕ → UInt8} {off n : ℕ}

/-! ## What a write does to the files -/

theorem Overwritten.content (h : Sound s) (hl : s.Loaded ip) (ho : Overwritten ip src off n s s')
    (hoff : off ≤ (s.inode ip).d.size.toNat) :
    s'.content (s.num ip) = overwrite (s.content (s.num ip)) off ((List.range n).map src) := by
  have hd := h.dinode_num hl
  have hd' := ho.framed.sound.dinode_num (ho.framed.loaded hl)
  rw [ho.framed.num] at hd'
  have hlen : off ≤ (s.content (s.num ip)).length := by rw [length_content, hd]; exact hoff
  apply ext_getElem
  · rw [length_overwrite hlen, length_content, length_content, hd', hd, ho.size, length_map,
      length_range]
  · intro o h1 h2
    rw [getElem_content, getElem_overwrite hlen, ho.bytes, length_map, length_range]
    rw [length_overwrite hlen, length_content, hd, length_map, length_range] at h2
    split_ifs with hin
    · rw [getD_eq_getElem _ _ (by simp; omega)]
      simp
    · have hlt : o < (s.content (s.num ip)).length := by
        rw [length_content, hd]
        omega
      rw [getD_eq_getElem _ _ hlt, getElem_content]

theorem Overwritten.noHoles (h : Sound s) (hl : s.Loaded ip) (ho : Overwritten ip src off n s s')
    (hoff : off ≤ (s.inode ip).d.size.toNat) (hholes : s.NoHoles (s.num ip)) :
    s'.NoHoles (s'.num ip) := by
  intro k hk
  have hb : BSIZE = 512 := rfl
  rw [ho.framed.sound.dinode_num (ho.framed.loaded hl), ho.size] at hk
  rw [ho.framed.num]
  by_cases hold : k * BSIZE < (s.inode ip).d.size.toNat
  · have h0 : s.blockAt (s.num ip) k ≠ 0 := hholes k (by rw [h.dinode_num hl]; exact hold)
    rw [ho.kept k h0]
    exact h0
  · apply ho.mapped
    rw [mem_span]
    simp only [hb] at *
    omega

theorem Framed.content (h : Framed ip s s') {i : ℕ} (hi : i ≠ s.num ip) (hn : i < s.sb.ninodes) :
    s'.content i = s.content i := by
  simp only [Vol.content, fileBytes, h.dinode hi hn, h.fileByte hi]

theorem Framed.noHoles (h : Framed ip s s') {i : ℕ} (hi : i ≠ s.num ip) (hn : i < s.sb.ninodes)
    (hholes : s.NoHoles i) : s'.NoHoles i := by
  intro k hk
  rw [h.dinode hi hn] at hk
  rw [h.blockAt hi]
  exact hholes k hk

/-- What `writei` refuses. -/
def Refused (s : Vol τ) (ip : Fin NINODE) (off n : ℕ) : Prop :=
  (s.inode ip).d.size.toNat < off ∨ (off + n) % 2 ^ 32 < off ∨ MAXFILE * BSIZE < off + n

/-- **A file behaves as an array of bytes.**  A write that is refused changes nothing.
Any other returns `n` if there are blocks and log entries for it, and afterwards
`readi` reads from the old bytes with the new ones written over; every other file
reads as before. -/
theorem file_is_bytes (D : Devsw τ) (h : Sound s) (hmapped : s.AllMapped)
    (hidle : ∀ x, s.held x = none) (hl : s.Loaded ip) (ht : (s.inode ip).d.itype ≠ 0)
    (hdev : (s.inode ip).d.isDev = false) (src : ℕ → UInt8) (off n : ℕ)
    (hspare : ¬s.Refused ip off n → s.newBlocks (s.num ip) (span off n) ≤ s.free.length)
    (hroom : ¬s.Refused ip off n → s.log.Room (s.writeSet ip off n)) :
    (s.Refused ip off n → (writei D me ip src off n).run s = .done (-1) s) ∧
      (¬s.Refused ip off n → ∃ s', (writei D me ip src off n).run s = .done n s' ∧
        (∀ off' n', (readi D me ip off' n').run s' = .done
          (readResult (overwrite (s.content (s.num ip)) off ((List.range n).map src)) off' n') s') ∧
        (∀ i, i < s.sb.ninodes → i ≠ s.num ip →
          s'.dinode i = s.dinode i ∧ s'.content i = s.content i) ∧
        ∀ jp, jp ≠ ip → s.Loaded jp → (s.inode jp).d.itype ≠ 0 →
          (s.inode jp).d.isDev = false → ∀ off' n', ∃ r,
            (readi D me jp off' n').run s = .done r s ∧
            (readi D me jp off' n').run s' = .done r s') := by
  have hmap : ∀ jp, s.Loaded jp → (s.inode jp).d.itype ≠ 0 → (s.inode jp).d.isDev = false →
      s.NoHoles (s.num jp) := fun jp hj htj hdj =>
    hmapped _ ((h.inUse_num hj).2 htj) (by rw [h.dinode_num hj]; exact hdj)
  constructor
  · intro hbad
    have hwp : (writei D me ip src off n).wp noPanic (fun r s' => r = -1 ∧ s' = s) s :=
      wp_writei_bad D hdev src hbad ⟨rfl, rfl⟩
    obtain ⟨r, s', hrun, hr, hs⟩ := (wp_noPanic_iff _).1 hwp
    rw [hrun, hr, hs]
  · intro hgood
    obtain ⟨hoff, hmax⟩ : off ≤ (s.inode ip).d.size.toNat ∧ off + n ≤ MAXFILE * BSIZE := by
      rw [Refused] at hgood
      omega
    obtain ⟨r, s', hrun, rfl, ho, -⟩ := (wp_noPanic_iff _).1 (@wp_writei _ _
      noPanic me _ _ D h hl ht hdev hidle src _ _ hoff hmax (Or.inl (hspare hgood))
      (Or.inl (hroom hgood)) (Finset.Subset.refl _))
    have hf := ho.framed
    have hidle' : ∀ x, s'.held x = none := fun x => by rw [hf.held]; exact hidle x
    refine ⟨s', hrun, fun off' n' => ?_, fun i hi hne => ⟨hf.dinode hne hi, hf.content hne hi⟩,
      fun jp hne hj htj hdj off' n' => ?_⟩
    · obtain ⟨sz, a, hin⟩ := hf.inode
      have hread := @run_readi _ _ me _ D hf.sound (hf.loaded hl) (hf.itype ▸ ht)
        (by rw [hin]; exact hdev) hidle' (ho.noHoles h hl hoff (hmap ip hl ht hdev)) off' n'
      rw [hf.num, ho.content h hl hoff] at hread
      exact hread
    · have hslot := hf.slots jp hne
      have hl' : s'.Loaded jp := by rw [Loaded, hslot]; exact hj
      have hnum : s'.num jp = s.num jp := by rw [num, hslot]
      have hne' : s.num jp ≠ s.num ip := fun he => hne (h.slots jp ip hj.1 hl.1 he)
      have hlt := h.inums jp hj.1
      refine ⟨_, run_readi D h hj htj hdj hidle (hmap jp hj htj hdj) off' n', ?_⟩
      rw [← hf.content hne' hlt, ← hnum]
      exact run_readi D hf.sound hl' (by rw [hslot]; exact htj) (by rw [hslot]; exact hdj) hidle'
        (by rw [hnum]; exact hf.noHoles hne' hlt (hmap jp hj htj hdj)) off' n'

/-! ## The log bounds what a call can write -/

/-- From `s` to `s'` the log has only grown, within its size, and it holds the blocks
passed to `log_write` in between. -/
structure Logs (s s' : Vol τ) : Prop where
  /-- Same log area. -/
  size : s'.log.size = s.log.size
  /-- Nothing is dropped. -/
  sub : ∀ x ∈ s.log.block, x ∈ s'.log.block
  /-- What is passed is recorded. -/
  passed : ∃ l, s'.passed = s.passed ++ l ∧ ∀ x ∈ l, x ∈ s'.log.block
  /-- The log area is never overrun. -/
  fits : s.log.n < s.log.size → s'.log.n < s'.log.size

theorem Logs.of_eq (hlog : s'.log = s.log) (hpassed : s'.passed = s.passed) : Logs s s' where
  size := by rw [hlog]
  sub x hx := by rw [hlog]; exact hx
  passed := ⟨[], by rw [hpassed, List.append_nil], fun x hx => absurd hx not_mem_nil⟩
  fits h := by rw [hlog]; exact h

instance : Std.Refl (Logs (τ := τ)) := ⟨fun _ => .of_eq rfl rfl⟩

instance : IsTrans (Vol τ) Logs where
  trans s t u h h' := by
    obtain ⟨l, hl, hmem⟩ := h.passed
    obtain ⟨l', hl', hmem'⟩ := h'.passed
    refine ⟨h'.size.trans h.size, fun x hx => h'.sub x (h.sub x hx),
      ⟨l ++ l', by rw [hl', hl, append_assoc], fun x hx => ?_⟩, fun hn => h'.fits (h.fits hn)⟩
    rcases mem_append.1 hx with hx | hx
    · exact h'.sub x (hmem x hx)
    · exact hmem' x hx

theorem logs_logWrite (b : ℕ) : (logWrite b : Prog (Vol τ) Unit).Keeps Logs := by
  intro s a s' hrun
  have hwp : (logWrite b).wp anyPanic (fun _ s' => Logs s s') s := by
    simp only [logWrite, bind_eq, wp_bind, wp_panicIf, wp_critical]
    refine ⟨fun _ => trivial, fun hbig => ⟨fun _ => trivial, fun _ => Or.inl ?_⟩⟩
    obtain ⟨h1, h2⟩ := (Log.tooBig_eq_false_iff _).1 hbig
    refine ⟨(), _, by rw [recordSection, Log.record_of_lt h1], ?_⟩
    have hrec := Log.record_of_lt h1 b
    refine ⟨?_, fun x hx => (Log.mem_record hrec).2 (Or.inr hx),
      ⟨[b], rfl, fun x hx => (Log.mem_record hrec).2 (Or.inl (mem_singleton.1 hx))⟩, fun _ => ?_⟩
    · change (s.log.recorded b).size = _
      rw [Log.recorded]
      split_ifs <;> rfl
    · change (s.log.recorded b).block.length < (s.log.recorded b).size
      rw [Log.n] at h2
      rw [Log.recorded]
      split_ifs
      · omega
      · change (s.log.block ++ [b]).length < s.log.size
        rw [length_append, length_singleton]
        omega
  exact of_wp_of_run hwp hrun

theorem logs_read (me : τ) (b : ℕ) : (read me b).Keeps Logs :=
  keeps_await fun _ => .of_eq rfl rfl

theorem logs_modify (b : ℕ) (f : Block → Block) : (modify b f : Prog (Vol τ) Unit).Keeps Logs :=
  keeps_change fun _ => .of_eq rfl rfl

theorem logs_release (b : ℕ) : (release b : Prog (Vol τ) Unit).Keeps Logs :=
  keeps_change fun _ => .of_eq rfl rfl

theorem logs_bzero (me : τ) (b : ℕ) : (bzero me b).Keeps Logs :=
  keeps_bind (logs_read me b) fun _ => keeps_bind (logs_modify b _) fun _ =>
    keeps_bind (logs_logWrite b) fun _ => logs_release b

theorem logs_balloc (me : τ) : (balloc me).Keeps Logs := by
  refine keeps_bind (keeps_look _) fun sb => ?_
  generalize bmapStarts sb.size = bs
  induction bs with
  | nil => exact keeps_panic _
  | cons b bs ih =>
    refine keeps_bind (keeps_look _) fun sb => keeps_bind (logs_read me _) fun _ =>
      keeps_bind (keeps_look _) fun d => ?_
    split
    · exact keeps_bind (logs_modify _ _) fun _ => keeps_bind (logs_logWrite _) fun _ =>
        keeps_bind (logs_release _) fun _ => keeps_bind (logs_bzero me _) fun _ =>
          keeps_ret _
    · exact keeps_bind (logs_release _) fun _ => ih

theorem logs_blockOf (me : τ) (ip : Fin NINODE) (j : Fin (NDIRECT + 1)) :
    (blockOf me ip j).Keeps Logs := by
  refine keeps_bind (keeps_look _) fun a => ?_
  split
  · exact keeps_bind (logs_balloc me) fun _ => keeps_bind
      (keeps_change fun _ => .of_eq rfl rfl) fun _ => keeps_ret _
  · exact keeps_ret _

theorem logs_bmap (me : τ) (ip : Fin NINODE) (bn : ℕ) : (bmap me ip bn).Keeps Logs := by
  rw [bmap]
  split
  · exact logs_blockOf me ip _
  · split
    · refine keeps_bind (logs_blockOf me ip _) fun a => keeps_bind
        (logs_read me a) fun _ =>
        keeps_bind (keeps_look _) fun x => ?_
      split
      · exact keeps_bind (logs_balloc me) fun _ => keeps_bind (logs_modify _ _) fun _ =>
          keeps_bind (logs_logWrite _) fun _ => keeps_bind (logs_release _) fun _ =>
            keeps_ret _
      · exact keeps_bind (logs_release _) fun _ => keeps_ret _
    · exact keeps_panic _

theorem logs_writeLoop (me : τ) (ip : Fin NINODE) (src : ℕ → UInt8) (n fuel tot cur : ℕ) :
    (writeLoop me ip src n fuel tot cur).Keeps Logs := by
  induction fuel generalizing tot cur with
  | zero => exact keeps_ret _
  | succ fuel ih =>
    rw [writeLoop]
    split
    · exact keeps_bind (logs_bmap me ip _) fun b => keeps_bind (logs_read me b) fun _ =>
        keeps_bind (logs_modify b _) fun _ => keeps_bind (logs_logWrite b) fun _ =>
          keeps_bind (logs_release b) fun _ => ih _ _
    · exact keeps_ret _

theorem logs_iupdate (me : τ) (ip : Fin NINODE) : (iupdate me ip).Keeps Logs :=
  keeps_bind (keeps_look _) fun _ => keeps_bind (keeps_look _) fun _ =>
    keeps_bind (logs_read me _) fun _ => keeps_bind
      (keeps_change fun _ => .of_eq rfl rfl) fun _ => keeps_bind
        (logs_logWrite _) fun _ =>
        logs_release _

theorem logs_writei (D : Devsw τ) (hdev : (s.inode ip).d.isDev = false) {r : ℤ}
    (hrun : (writei D me ip src off n).run s = .done r s') : Logs s s' := by
  have hlook : (Prog.look fun s : Vol τ => (s.inode ip).d).run s = .done (s.inode ip).d s := rfl
  simp only [writei, bind_eq, run_bind_of_done hlook, hdev, Bool.false_eq_true, if_false] at hrun
  split_ifs at hrun
  · exact keeps_ret _ s r s' hrun
  · exact keeps_ret _ s r s' hrun
  · refine keeps_bind (logs_writeLoop me ip src n _ _ _) (fun cur => ?_) s r s' hrun
    refine keeps_bind (keeps_look _) fun size => ?_
    split
    · exact keeps_bind (keeps_change fun _ => .of_eq rfl rfl) fun _ =>
        keeps_bind (logs_iupdate me ip) fun _ => keeps_ret _
    · exact keeps_ret _

/-- What is passed fits into the log. -/
theorem Logs.card_le (h : Logs s s') (hn : s.log.n < s.log.size) {l : List ℕ}
    (hl : s'.passed = s.passed ++ l) : l.toFinset.card < s.log.size := by
  obtain ⟨l', hl', hmem⟩ := h.passed
  have heq : l = l' := append_cancel_left (hl.symm.trans hl')
  have hsub : l.toFinset ⊆ s'.log.block.toFinset := fun x hx =>
    mem_toFinset.2 (hmem x (heq ▸ mem_toFinset.1 hx))
  calc l.toFinset.card ≤ s'.log.block.toFinset.card := Finset.card_le_card hsub
    _ ≤ s'.log.n := toFinset_card_le _
    _ < s'.log.size := h.fits hn
    _ = s.log.size := h.size

/-- A write of more blocks than the log can take does not return. -/
theorem writei_panics (D : Devsw τ) (h : Sound s) (hl : s.Loaded ip)
    (ht : (s.inode ip).d.itype ≠ 0) (hdev : (s.inode ip).d.isDev = false)
    (hidle : ∀ x, s.held x = none) (src : ℕ → UInt8) (hoff : off ≤ (s.inode ip).d.size.toNat)
    (hmax : off + n ≤ MAXFILE * BSIZE) (hn : s.log.n < s.log.size)
    (hbig : s.log.size ≤ (span off n).length) :
    ∃ msg s', (writei D me ip src off n).run s = .panicked msg s' := by
  have hwp := @wp_writei _ _ anyPanic me _ _ D h hl ht hdev hidle src _ _ hoff hmax
    (Or.inr fun _ => trivial) (Or.inr fun _ => trivial) (Finset.Subset.refl _)
  rcases (wp_iff_run _).1 hwp with ⟨r, s', hrun, -, ho, -⟩ | ⟨msg, s', hrun, -⟩
  · obtain ⟨l, h1, h2⟩ := ho.passed
    have hlt := (logs_writei D hdev hrun).card_le hn h1
    rw [h2, h.card_writeSet hl ho.enough, cost] at hlt
    omega
  · exact ⟨msg, s', hrun⟩

/-! ## An empty file -/

open Mkfs Mkfs.Tool

/-- A volume with one empty file, open in a transaction. -/
theorem fresh_transaction : ∃ s : Vol Unit, Sound s ∧ s.AllMapped ∧ (∀ x, s.held x = none) ∧
    s.Loaded 0 ∧ (s.inode 0).d.itype = T_FILE ∧ (s.inode 0).d.size.toNat = 0 ∧
    100 ≤ s.free.length ∧ s.sb = layout ∧ s.log = (Log.fresh 2 30).enter := by
  obtain ⟨m, hb, hfree⟩ := built_empty [97]
  obtain ⟨hs, hrefs, hl, hnum, hd⟩ := sound_withInode hb.shows.sound (fun _ => rfl)
    (hb.shows.lt_ninodes (show 2 < 200 by decide))
  obtain ⟨data, hdata, hc⟩ := hb.file 0 [97] rfl
  cases hdata
  have hslot : ((withInode m.vol 2).inode 0).d = (m.vol).dinode 2 := by rw [inode_withInode]
  refine ⟨{ withInode m.vol 2 with log := (Log.fresh 2 30).enter }, hs.relog _,
    fun i hi hdev k hk => ?_, fun _ => rfl, hl, hslot ▸ hc.itype, hslot ▸ hc.size, hfree,
    hb.shows.sb, rfl⟩
  have hall := hb.allMapped i
  change (withInode m.vol 2).blockAt i k ≠ 0
  rw [blockAt, hrefs]
  change k * BSIZE < ((withInode m.vol 2).dinode i).size.toNat at hk
  change i < (m.vol).sb.ninodes ∧ ((withInode m.vol 2).dinode i).itype ≠ 0 at hi
  change ((withInode m.vol 2).dinode i).isDev = false at hdev
  rw [hd] at hk hdev hi
  exact hall hi hdev k hk

/-- Twenty bytes written to an empty file. -/
theorem file_is_bytes_twenty : ∃ s s' : Vol Unit, s.content (s.num 0) = [] ∧
    (writei noDev () 0 (fun _ => 7) 0 20).run s = .done 20 s' ∧
    (readi noDev () 0 18 5).run s' = .done (2, [7, 7]) s' := by
  obtain ⟨s, hs, hall, hidle, hl, ht, hsize, hfree, hsb, hlog⟩ := fresh_transaction
  have hgood : ¬s.Refused 0 0 20 := by
    rw [Refused, hsize]
    decide
  have hnew : s.newBlocks (s.num 0) (span 0 20) ≤ s.free.length :=
    le_trans (newBlocks_le _ _ _ _) (le_trans (by decide) hfree)
  have hempty : s.content (s.num 0) = [] := by
    rw [← length_eq_zero_iff, length_content, hs.dinode_num hl, hsize]
  have hroom : s.log.Room (s.writeSet 0 0 20) := by
    have hcost := (cost_layout hsb (s.num 0) 0 20).2
    rw [hlog]
    refine ⟨nodup_nil, le_refl _, rfl, ?_⟩
    change (∅ ∪ s.writeSet 0 0 20).card < 29
    rw [Finset.empty_union, hs.card_writeSet hl hnew]
    exact lt_of_le_of_lt hcost (by decide)
  obtain ⟨s', hrun, hread, -⟩ := (@file_is_bytes _ _ () _ noDev hs hall hidle hl
    (by rw [ht]; decide) (isDev_eq_false ht) (fun _ => 7) 0 20 (fun _ => hnew) fun _ => hroom).2
      hgood
  refine ⟨s, s', hempty, hrun, ?_⟩
  rw [hread, hempty]
  rfl

/-- A write of 20000 bytes to an empty file, with the log empty and 100 blocks free. -/
theorem writei_too_big : ∃ s : Vol Unit, Sound s ∧ s.AllMapped ∧ (∀ x, s.held x = none) ∧
    s.Loaded 0 ∧ (s.inode 0).d.itype = T_FILE ∧ ¬s.Refused 0 0 20000 ∧
    s.newBlocks (s.num 0) (span 0 20000) ≤ s.free.length ∧ s.log = (Log.fresh 2 30).enter ∧
    ∃ msg s', (writei noDev () 0 (fun _ => 7) 0 20000).run s = .panicked msg s' := by
  obtain ⟨s, hs, hall, hidle, hl, ht, hsize, hfree, -, hlog⟩ := fresh_transaction
  have hnew : s.newBlocks (s.num 0) (span 0 20000) ≤ s.free.length :=
    le_trans (newBlocks_le _ _ _ _) (le_trans (by decide) hfree)
  refine ⟨s, hs, hall, hidle, hl, ht, by rw [Refused, hsize]; decide, hnew, hlog,
    writei_panics noDev hs hl (by rw [ht]; decide) (isDev_eq_false ht) hidle _ (Nat.zero_le _)
      (by decide) (by rw [hlog]; decide) ?_⟩
  rw [length_span_zero, hlog]
  decide


end Vol

end Xv6.Fs
