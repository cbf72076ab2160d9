import Xv6.Fs.Bmap

/-!
# Reading and writing files

What the loops of `readi` and `writei` do on their own.  A transfer of `n` bytes
at `off` visits the blocks `span off n`.

* `wp_readLoop` — with every block of the span mapped, the loop of `readi` returns
  the bytes of the file and leaves the volume exactly as it was.
* `wp_writeLoop` — the loop of `writei` overwrites a range of the file, mapping the
  blocks it needs, and logs exactly the blocks `Vol.writes`.
* `Framed ip s s'` — only the file in cache entry `ip` has changed.
-/

namespace Xv6.Fs

open Lib Prog List

/-! ## The blocks of a transfer -/

/-- The indices of the blocks that hold the `n` bytes at `off`. -/
def span (off n : ℕ) : List ℕ :=
  if n = 0 then [] else List.range' (off / BSIZE) ((off + n - 1) / BSIZE - off / BSIZE + 1)

@[simp] theorem span_zero (off : ℕ) : span off 0 = [] := if_pos rfl

theorem mem_span {off n k : ℕ} :
    k ∈ span off n ↔ 0 < n ∧ off / BSIZE ≤ k ∧ k ≤ (off + n - 1) / BSIZE := by
  have hb : BSIZE = 512 := rfl
  rw [span]
  split_ifs with h
  · simp [h]
  · rw [mem_range'_1]
    simp only [hb]
    omega

theorem length_span_zero (n : ℕ) : (span 0 n).length = (n + BSIZE - 1) / BSIZE := by
  have hb : BSIZE = 512 := rfl
  rw [span]
  split_ifs with h
  · rw [h, length_nil, hb]
  · rw [length_range', hb]
    omega

theorem nodup_span (off n : ℕ) : (span off n).Nodup := by
  rw [span]
  split_ifs
  · exact nodup_nil
  · exact nodup_range'

/-- The first pass of a transfer works on the first block of its span, and the rest of
the transfer on the rest. -/
theorem span_cons {cur r : ℕ} (hr : 0 < r) {m : ℕ} (hm : m = min r (BSIZE - cur % BSIZE)) :
    span cur r = cur / BSIZE :: span (cur + m) (r - m) := by
  have hb : BSIZE = 512 := rfl
  subst hm
  simp only [span, hb]
  rw [if_neg (by omega)]
  split_ifs with h
  · rw [show (cur + r - 1) / 512 - cur / 512 + 1 = 1 by omega]
    rfl
  · rw [show (cur + r - 1) / 512 - cur / 512 + 1 =
      ((cur + min r (512 - cur % 512)) + (r - min r (512 - cur % 512)) - 1) / 512 -
        (cur + min r (512 - cur % 512)) / 512 + 1 + 1 by omega, range'_succ,
      show (cur + min r (512 - cur % 512)) / 512 = cur / 512 + 1 by omega]

/-- Every block of a span that ends in the file's address space is a block of the file. -/
theorem lt_of_mem_span {off n k : ℕ} (hk : k ∈ span off n) (h : off + n ≤ MAXFILE * BSIZE) :
    k < MAXFILE := by
  have hb : BSIZE = 512 := rfl
  have hm : MAXFILE = 140 := rfl
  rw [mem_span] at hk
  simp only [hb, hm] at *
  omega

namespace Vol

variable {τ : Type} {s s' s'' : Vol τ} {E : String → Prop} {me : τ} {F : Finset ℕ} {ip : Fin NINODE}

/-! ## Reading -/

/-- `bmap` of a block that is there changes nothing. -/
theorem wp_bmap_of_ne (h : Sound s) (hl : s.Loaded ip) (ht : (s.inode ip).d.itype ≠ 0)
    (hidle : ∀ x, s.held x = none) {k : ℕ} (h0 : s.blockAt (s.num ip) k ≠ 0)
    {Q : ℕ → Vol τ → Prop} (hQ : Q (s.blockAt (s.num ip) k) s) : (bmap me ip k).wp E Q s := by
  by_cases hk : k < NDIRECT
  · have hb := h.blockAt_of_lt hl ht hk
    rw [bmap, dif_pos hk, wp_blockOf_of_ne (hb ▸ h0), ← hb]
    exact hQ
  · have hk' : k - NDIRECT < NINDIRECT := by
      by_contra hk'
      refine h0 (blockAt_of_none ?_ _)
      rw [Place.nth, dif_neg hk, dif_neg hk']
    have hb := h.blockAt_of_le hl ht hk hk'
    have hind : s.indirectOf (s.num ip) ≠ 0 := by
      intro hz
      rw [if_pos hz] at hb
      exact h0 hb
    rw [if_neg hind] at hb
    have haddr := h.indirectOf_num hl ht
    rw [bmap, dif_neg hk, if_pos hk', bind_eq, wp_bind, wp_blockOf_of_ne (haddr ▸ hind), ← haddr]
    exact wp_entryOf_of_ne (hidle _) (hb ▸ h0) (hb ▸ hQ)

/-- The `n` bytes at `off` of inode `i`. -/
def fileBytes (s : Vol τ) (i off n : ℕ) : List UInt8 :=
  (List.range n).map fun o => s.fileByte i (off + o)

@[simp] theorem length_fileBytes (s : Vol τ) (i off n : ℕ) : (s.fileBytes i off n).length = n := by
  simp [fileBytes]

theorem fileBytes_add (s : Vol τ) (i off m n : ℕ) :
    s.fileBytes i off (m + n) = s.fileBytes i off m ++ s.fileBytes i (off + m) n := by
  simp only [fileBytes, range_add, map_append, map_map]
  congr 1
  refine map_congr_left fun o _ => ?_
  simp only [Function.comp, Nat.add_assoc]

/-- The part of a block that one pass copies. -/
theorem bytes_blockAt {i cur m : ℕ} (hm : m ≤ BSIZE - cur % BSIZE)
    (h0 : s.blockAt i (cur / BSIZE) ≠ 0) :
    (s.blk (s.blockAt i (cur / BSIZE))).bytes (cur % BSIZE) m = s.fileBytes i cur m := by
  have hb : BSIZE = 512 := rfl
  refine map_congr_left fun o ho => ?_
  have ho := mem_range.1 ho
  have hdiv : (cur + o) / BSIZE = cur / BSIZE := by
    simp only [hb] at *
    omega
  have hmod : (cur + o) % BSIZE = cur % BSIZE + o := by
    simp only [hb] at *
    omega
  rw [fileByte, hdiv, if_neg h0, hmod]

/-- **The loop of `readi` returns the bytes of the file and changes nothing.** -/
theorem wp_readLoop (h : Sound s) (hl : s.Loaded ip) (ht : (s.inode ip).d.itype ≠ 0)
    (hidle : ∀ x, s.held x = none) {n : ℕ} (fuel tot cur : ℕ) (hfuel : n - tot ≤ fuel)
    (hmap : ∀ k ∈ span cur (n - tot), s.blockAt (s.num ip) k ≠ 0)
    {Q : List UInt8 → Vol τ → Prop} (hQ : Q (s.fileBytes (s.num ip) cur (n - tot)) s) :
    (readLoop me ip n fuel tot cur).wp E Q s := by
  induction fuel generalizing tot cur Q with
  | zero =>
    rw [Nat.le_zero.1 hfuel] at hQ
    exact hQ
  | succ fuel ih =>
    rw [readLoop]
    by_cases hlt : tot < n
    · have hb : BSIZE = 512 := rfl
      generalize hm : min (n - tot) (BSIZE - cur % BSIZE) = m
      have hspan := span_cons (Nat.sub_pos_of_lt hlt) hm.symm
      have h0 : s.blockAt (s.num ip) (cur / BSIZE) ≠ 0 :=
        hmap _ (hspan ▸ mem_cons_self)
      have hmod : cur % BSIZE < BSIZE := Nat.mod_lt _ (by decide)
      simp only [if_pos hlt, bind_eq, wp_bind]
      apply wp_bmap_of_ne h hl ht hidle h0
      simp only [wp_read, hidle, true_and, wp_dataOf, wp_release, setHeld_none s me (hidle _)]
      have hrest : n - (tot + m) = n - tot - m := by omega
      apply ih (tot + m) (cur + m) (by omega)
      · intro k hk
        rw [hrest] at hk
        exact hmap k (hspan ▸ mem_cons_of_mem _ hk)
      · have hsplit : n - tot = m + (n - (tot + m)) := by omega
        rw [hsplit, fileBytes_add] at hQ
        rw [← bytes_blockAt (by omega) h0] at hQ
        exact hQ
    · rw [if_neg hlt]
      rw [show n - tot = 0 by omega] at hQ
      exact hQ

/-- Every block below the size is there. -/
def NoHoles (s : Vol τ) (i : ℕ) : Prop :=
  ∀ k, k * BSIZE < (s.dinode i).size.toNat → s.blockAt i k ≠ 0

theorem NoHoles.of_mem_span {i off n : ℕ} (h : s.NoHoles i)
    (hn : off + n ≤ (s.dinode i).size.toNat) {k : ℕ} (hk : k ∈ span off n) :
    s.blockAt i k ≠ 0 := by
  have hb : BSIZE = 512 := rfl
  apply h
  rw [mem_span] at hk
  simp only [hb] at *
  omega

/-- No file of the volume has holes. -/
def AllMapped (s : Vol τ) : Prop :=
  ∀ i, s.InUse i → (s.dinode i).isDev = false → s.NoHoles i

/-- A file without holes is not longer than its address space. -/
theorem NoHoles.size_le {i : ℕ} (h : s.NoHoles i) :
    (s.dinode i).size.toNat ≤ MAXFILE * BSIZE := by
  by_contra hlt
  have hnone : Place.nth MAXFILE = none := by decide
  exact h MAXFILE (by omega) (blockAt_of_none hnone i)

/-- **`readi` of a file returns its bytes and changes nothing.** -/
theorem wp_readi (D : Devsw τ) (h : Sound s) (hl : s.Loaded ip) (ht : (s.inode ip).d.itype ≠ 0)
    (hdev : (s.inode ip).d.isDev = false) (hidle : ∀ x, s.held x = none)
    (hholes : s.NoHoles (s.num ip)) {off n size : ℕ} (hsize : (s.inode ip).d.size.toNat = size)
    {Q : ℤ × List UInt8 → Vol τ → Prop}
    (hQ : Q (if size < off ∨ (off + n) % 2 ^ 32 < off then (-1, [])
      else (((min n (size - off) : ℕ) : ℤ), s.fileBytes (s.num ip) off (min n (size - off)))) s) :
    (readi D me ip off n).wp E Q s := by
  have hle := hholes.size_le
  rw [h.dinode_num hl, hsize] at hle
  simp only [readi, bind_eq, wp_bind, wp_look, hdev, hsize, Bool.false_eq_true, if_false]
  split_ifs at hQ ⊢ with hbad
  · exact hQ
  · rw [wp_bind]
    have hmax : MAXFILE * BSIZE = 71680 := rfl
    apply wp_readLoop h hl ht hidle _ _ _ (Nat.sub_le _ _)
    · intro k hk
      rw [Nat.sub_zero] at hk
      refine hholes.of_mem_span ?_ hk
      rw [h.dinode_num hl, hsize]
      omega
    · rw [Nat.sub_zero, Prog.pure_eq, wp_ret, asI32_of_lt (by omega)]
      exact hQ

/-- The bytes of a file. -/
def content (s : Vol τ) (i : ℕ) : List UInt8 := s.fileBytes i 0 (s.dinode i).size.toNat

@[simp] theorem length_content (s : Vol τ) (i : ℕ) :
    (s.content i).length = (s.dinode i).size.toNat := by
  simp [content]

theorem getElem_content (s : Vol τ) (i : ℕ) {o : ℕ} (ho : o < (s.content i).length) :
    (s.content i)[o] = s.fileByte i o := by
  simp [content, fileBytes]

/-- The bytes of a file depend on its inode and the blocks. -/
theorem content_congr {i : ℕ} (hblk : s'.blk = s.blk) (hsb : s'.sb = s.sb)
    (hd : s'.dinode i = s.dinode i) : s'.content i = s.content i := by
  have hrefs : ∀ p, s'.refs (i, p) = s.refs (i, p) := fun p => by
    by_cases hu : s.InUse i
    · have hu' : s'.InUse i := ⟨hsb ▸ hu.1, hd ▸ hu.2⟩
      rw [refs_of_inUse hu', refs_of_inUse hu, hd, hblk]
    · have hu' : ¬s'.InUse i := fun h => hu ⟨hsb ▸ h.1, hd ▸ h.2⟩
      rw [refs_of_not_inUse hu', refs_of_not_inUse hu]
  have hbyte : ∀ o, s'.fileByte i o = s.fileByte i o := fun o => by
    rw [fileByte, fileByte, blockAt, blockAt]
    simp only [hrefs, hblk]
  simp only [content, fileBytes, hbyte, hd]

/-- What `readi` returns for a file with the bytes `c`. -/
def readResult (c : List UInt8) (off n : ℕ) : ℤ × List UInt8 :=
  if c.length < off ∨ (off + n) % 2 ^ 32 < off then (-1, [])
  else (((min n (c.length - off) : ℕ) : ℤ), (c.drop off).take n)

theorem fileBytes_eq_content (s : Vol τ) (i off n : ℕ) :
    s.fileBytes i off (min n ((s.content i).length - off)) = ((s.content i).drop off).take n := by
  apply ext_getElem
  · simp
  · intro o h1 h2
    rw [getElem_take, getElem_drop, getElem_content]
    simp [fileBytes]

/-- **`readi` of a file without holes reads from its bytes and changes nothing.** -/
theorem run_readi (D : Devsw τ) (h : Sound s) (hl : s.Loaded ip) (ht : (s.inode ip).d.itype ≠ 0)
    (hdev : (s.inode ip).d.isDev = false) (hidle : ∀ x, s.held x = none)
    (hholes : s.NoHoles (s.num ip)) (off n : ℕ) :
    (readi D me ip off n).run s = .done (readResult (s.content (s.num ip)) off n) s := by
  have hsize : (s.inode ip).d.size.toNat = (s.content (s.num ip)).length := by
    rw [length_content, h.dinode_num hl]
  have hwp : (readi D me ip off n).wp noPanic
      (fun r s' => r = readResult (s.content (s.num ip)) off n ∧ s' = s) s :=
    wp_readi D h hl ht hdev hidle hholes hsize ⟨by rw [readResult, fileBytes_eq_content], rfl⟩
  obtain ⟨r, s', hrun, hr, hs⟩ := (wp_noPanic_iff _).1 hwp
  rw [hrun, hr, hs]

/-! ## Only one file changes -/

/-- `s'` is `s` after work on the file in cache entry `ip`. -/
structure Framed (ip : Fin NINODE) (s s' : Vol τ) : Prop where
  /-- The volume stays consistent. -/
  sound : Sound s'
  /-- Same superblock. -/
  sb : s'.sb = s.sb
  /-- Same holders. -/
  held : s'.held = s.held
  /-- Same open files. -/
  file : s'.file = s.file
  /-- The other cache entries are unchanged. -/
  slots : ∀ jp, jp ≠ ip → s'.inode jp = s.inode jp
  /-- In this one only size and addresses change. -/
  inode : ∃ n a, s'.inode ip =
    { s.inode ip with d := { (s.inode ip).d with size := n, addrs := a } }
  /-- The other inodes on disk are unchanged. -/
  disk : ∀ i, i < s.sb.ninodes → i ≠ s.num ip → s'.disk i = s.disk i
  /-- The other inodes list what they did. -/
  others : ∀ i p, i ≠ s.num ip → s'.refs (i, p) = s.refs (i, p)
  /-- Their blocks keep their contents. -/
  blk : ∀ i p, i ≠ s.num ip → s.refs (i, p) ≠ 0 → s'.blk (s.refs (i, p)) = s.blk (s.refs (i, p))

theorem Grown.framed (h : Grown ip s s') : Framed ip s s' where
  sound := h.sound
  sb := h.sb
  held := h.held
  file := h.file
  slots := h.slots
  inode := ⟨_, _, h.inode⟩
  disk i hi _ := h.disk i hi
  others := h.others
  blk _ _ hi hne := h.blk _ hne fun he => hi (congrArg Prod.fst he)

namespace Framed

theorem num (h : Framed ip s s') : s'.num ip = s.num ip := by
  obtain ⟨n, a, he⟩ := h.inode
  rw [Vol.num, he]

theorem loaded (h : Framed ip s s') (hl : s.Loaded ip) : s'.Loaded ip := by
  obtain ⟨n, a, he⟩ := h.inode
  rw [Loaded, he]
  exact hl

theorem itype (h : Framed ip s s') : (s'.inode ip).d.itype = (s.inode ip).d.itype := by
  obtain ⟨n, a, he⟩ := h.inode
  rw [he]

theorem trans (h : Framed ip s s') (h' : Framed ip s' s'') : Framed ip s s'' where
  sound := h'.sound
  sb := h'.sb.trans h.sb
  held := h'.held.trans h.held
  file := h'.file.trans h.file
  slots jp hj := (h'.slots jp hj).trans (h.slots jp hj)
  inode := by
    obtain ⟨n, a, he⟩ := h.inode
    obtain ⟨n', a', he'⟩ := h'.inode
    exact ⟨n', a', by rw [he', he]⟩
  disk i hi hne := (h'.disk i (h.sb ▸ hi) (h.num ▸ hne)).trans (h.disk i hi hne)
  others i p hi := (h'.others i p (h.num ▸ hi)).trans (h.others i p hi)
  blk i p hi hne := by
    have h1 := h.others i p hi
    have h2 := h'.blk i p (h.num ▸ hi) (h1.symm ▸ hne)
    rw [h1] at h2
    rw [h2, h.blk i p hi hne]

theorem blockAt (h : Framed ip s s') {i : ℕ} (hi : i ≠ s.num ip) (k : ℕ) :
    s'.blockAt i k = s.blockAt i k := by
  cases hp : Place.nth k with
  | none => rw [blockAt_of_none hp, blockAt_of_none hp]
  | some p => rw [blockAt_eq_refs hp, blockAt_eq_refs hp, h.others i p hi]

/-- **Every other file reads as before.** -/
theorem fileByte (h : Framed ip s s') {i : ℕ} (hi : i ≠ s.num ip) (o : ℕ) :
    s'.fileByte i o = s.fileByte i o := by
  rw [Vol.fileByte, Vol.fileByte, h.blockAt hi]
  cases hp : Place.nth (o / BSIZE) with
  | none => rw [blockAt_of_none hp, if_pos rfl, if_pos rfl]
  | some p =>
    rw [blockAt_eq_refs hp]
    split_ifs with h0
    · rfl
    · rw [h.blk i p hi h0]

/-- Every other inode is the same. -/
theorem dinode (h : Framed ip s s') {i : ℕ} (hi : i ≠ s.num ip) (hn : i < s.sb.ninodes) :
    s'.dinode i = s.dinode i := by
  have hp : ∀ jp, (decide (0 < (s'.inode jp).ref) && (s'.inode jp).valid &&
      (s'.inode jp).inum == i) = (decide (0 < (s.inode jp).ref) && (s.inode jp).valid &&
      (s.inode jp).inum == i) := by
    intro jp
    by_cases hj : jp = ip
    · subst hj
      have h1 : ((s.inode jp).inum == i) = false := beq_false_of_ne (Ne.symm hi)
      have h2 : ((s'.inode jp).inum == i) = false :=
        beq_false_of_ne fun he => hi (he.symm.trans h.num)
      rw [h1, h2, Bool.and_false, Bool.and_false]
    · rw [h.slots jp hj]
  have hc : s'.cached i = s.cached i := by simp only [cached, hp]
  rw [Vol.dinode, Vol.dinode, hc]
  cases hjp : s.cached i with
  | none => exact h.disk i hn hi
  | some jp =>
    have hj : jp ≠ ip := by
      rintro rfl
      exact hi (cached_eq_some hjp).2.symm
    simp only [h.slots jp hj]

end Framed

theorem Sound.framed_write (h : Sound s) (ip : Fin NINODE) {k b : ℕ}
    (hb : s.blockAt (s.num ip) k = b)
    (h0 : b ≠ 0) (d : Block) : Framed ip s (s.put b d) ∧ (s.put b d).refs = s.refs ∧
      (s.put b d).free = s.free ∧
      (∀ i, i < s.sb.ninodes → (s.put b d).disk i = s.disk i) ∧
      ∀ o, (s.put b d).fileByte (s.num ip) o =
        if o / BSIZE = k then d.byte (o % BSIZE) else s.fileByte (s.num ip) o := by
  cases hp : Place.nth k with
  | none => exact absurd ((blockAt_of_none hp _).symm.trans hb) (Ne.symm h0)
  | some p =>
    have hkey : s.refs (s.num ip, p) = b := (blockAt_eq_refs hp _).symm.trans hb
    obtain ⟨hdata, hsize, -⟩ := h.refs.good _ (hkey ▸ h0)
    rw [hkey] at hdata hsize
    -- whoever lists the block is this place of this inode
    have honly : ∀ k', s.refs k' = b → k' = (s.num ip, p) := fun k' he =>
      h.refs.inj _ _ (he.trans hkey.symm) (he ▸ h0)
    have hind : ∀ i, s.refs (i, .addr Dinode.indirect) ≠ b := by
      intro i he
      have hpi : .addr Dinode.indirect = p := congrArg Prod.snd (honly _ he)
      exact Place.nth_ne_indirect k (hpi ▸ hp)
    have hrefs : (s.put b d).refs = s.refs :=
      refs_setBlk (fun i hi => h.iblock_ne_data hdata hsize hi) hind d
    have hdisk : ∀ i, i < s.sb.ninodes → (s.put b d).disk i = s.disk i :=
      fun i hi => disk_setBlk_of_ne (h.iblock_ne_data hdata hsize hi) d
    refine ⟨?_, hrefs, ?_, hdisk, fun o => ?_⟩
    · exact
        { sound := (h.write hdata hsize hind d).logged b
          sb := rfl
          held := rfl
          file := rfl
          slots := fun _ _ => rfl
          inode := ⟨_, _, rfl⟩
          disk := fun i hi _ => hdisk i hi
          others := fun i p _ => congrFun hrefs (i, p)
          blk := fun i q hi _ =>
            blk_put_of_ne (fun he => hi (congrArg Prod.fst (honly _ he))) d }
    · refine filter_congr fun x hx => ?_
      rw [show (s.put b d).bit x = s.bit x from
        bit_setBlk_of_ne (h.bblock_ne_data hdata (mem_range.1 hx)) d]
    · have hblock : ∀ x, (s.put b d).blockAt (s.num ip) x = s.blockAt (s.num ip) x := by
        intro x
        rw [blockAt, blockAt, hrefs]
      rw [fileByte, hblock]
      split_ifs with hz hk hk
      · exact absurd (hk ▸ hz) (hb ▸ h0)
      · rw [fileByte, if_pos hz]
      · rw [hk, hb, blk_put_self]
      · rw [fileByte, if_neg hz, blk_put_of_ne]
        intro he
        cases hq : Place.nth (o / BSIZE) with
        | none => exact hz (blockAt_of_none hq _)
        | some q =>
          rw [blockAt_eq_refs hq] at he
          have hqp : q = p := congrArg Prod.snd (honly _ he)
          exact hk (Place.nth_inj (hqp ▸ hq) hp)

/-! ## The blocks a transfer logs -/

/-- The blocks `writei` logs in its loop over the indices `K` of inode `i`. -/
def writes (s : Vol τ) (i : ℕ) (K : List ℕ) : Finset ℕ :=
  s.touched i K ∪ (K.map (s.blockAt i)).toFinset.erase 0

theorem mem_writes {i : ℕ} {K : List ℕ} {x : ℕ} : x ∈ s.writes i K ↔
    x ∈ s.touched i K ∨ (x ≠ 0 ∧ ∃ k ∈ K, s.blockAt i k = x) := by
  simp [writes]

section Cons

variable {k b : ℕ} {K : List ℕ}

/-- Mapping the first block takes no more than mapping all of them. -/
theorem newBlocks_singleton_le (s : Vol τ) (i k : ℕ) (K : List ℕ) :
    s.newBlocks i [k] ≤ s.newBlocks i (k :: K) := by
  rw [newBlocks_singleton, newBlocks, countP_cons]
  simp only [decide_eq_true_eq]
  have hif : (if NDIRECT ≤ k ∧ s.indirectOf i = 0 then 1 else 0) ≤
      if (∃ x ∈ k :: K, NDIRECT ≤ x) ∧ s.indirectOf i = 0 then 1 else 0 := by
    split_ifs with h1 h2 h2
    · exact le_refl 1
    · exact absurd ⟨⟨k, mem_cons_self, h1.1⟩, h1.2⟩ h2
    · exact Nat.zero_le 1
    · exact le_refl 0
  omega

theorem touched_singleton_subset (s : Vol τ) (i k : ℕ) (K : List ℕ) :
    s.touched i [k] ⊆ s.writes i (k :: K) := by
  have halloc : s.allocated i [k] ⊆ s.allocated i (k :: K) :=
    take_subset_take_left _ (newBlocks_singleton_le s i k K)
  intro x hx
  rw [mem_touched, addsEntry_singleton] at hx
  rw [mem_writes, mem_touched]
  left
  rcases hx with hx | ⟨c, hc, rfl⟩ | ⟨⟨h1, h2⟩, h3, rfl⟩
  · exact .inl (halloc hx)
  · exact .inr (Or.inl ⟨c, halloc hc, rfl⟩)
  · exact .inr (Or.inr ⟨⟨k, mem_cons_self, h1, h2⟩, h3, rfl⟩)

/-- After the first block is mapped, the rest of the transfer needs what it needed. -/
theorem Mapped.newBlocks_cons (hm : Mapped ip k s b s') (hK : k ∉ K) :
    s.newBlocks (s.num ip) (k :: K) =
      s.newBlocks (s.num ip) [k] + s'.newBlocks (s.num ip) K := by
  have hcount : K.countP (fun x => s'.blockAt (s.num ip) x = 0) =
      K.countP (fun x => s.blockAt (s.num ip) x = 0) := by
    refine countP_congr fun x hx => ?_
    rw [hm.blockAt_of_ne x (by rintro rfl; exact hK hx)]
  have hkeep : s.indirectOf (s.num ip) ≠ 0 →
      s'.indirectOf (s.num ip) = s.indirectOf (s.num ip) := hm.grown.keep _
  rw [newBlocks_singleton]
  simp only [newBlocks, countP_cons, hcount, mem_cons, exists_eq_or_imp, decide_eq_true_eq]
  by_cases hi : s.indirectOf (s.num ip) = 0
  · by_cases hk : NDIRECT ≤ k
    · have h1 := hm.indirect_of_le hk
      simp only [hi, hk, h1, true_or, and_self, and_false, if_true, if_false]
      omega
    · have h1 := hm.indirect_of_lt (by omega)
      simp only [hi, hk, h1, false_or, and_true, if_false]
      omega
  · have h1 := hkeep hi
    simp only [hi, h1, and_false, if_false]
    omega

theorem Mapped.allocated_cons (hm : Mapped ip k s b s') (hK : k ∉ K) :
    s.allocated (s.num ip) (k :: K) =
      s.allocated (s.num ip) [k] ++ s'.allocated (s.num ip) K := by
  rw [allocated, allocated, allocated, hm.newBlocks_cons hK, hm.free, take_add]

theorem Mapped.addsEntry_cons (hm : Mapped ip k s b s') (hK : k ∉ K) :
    s.AddsEntry (s.num ip) (k :: K) ↔
      s.AddsEntry (s.num ip) [k] ∨ s'.AddsEntry (s.num ip) K := by
  have hrest : ∀ x ∈ K, s'.blockAt (s.num ip) x = s.blockAt (s.num ip) x := fun x hx =>
    hm.blockAt_of_ne x (by rintro rfl; exact hK hx)
  rw [addsEntry_singleton]
  simp only [AddsEntry, mem_cons, exists_eq_or_imp]
  apply or_congr_right
  constructor
  · rintro ⟨x, hx, h1, h2⟩
    exact ⟨x, hx, h1, (hrest x hx).trans h2⟩
  · rintro ⟨x, hx, h1, h2⟩
    exact ⟨x, hx, h1, (hrest x hx).symm.trans h2⟩

/-- The blocks logged for the first block and those for the rest. -/
theorem Mapped.writes_cons (hm : Mapped ip k s b s') (hK : k ∉ K) :
    s.writes (s.num ip) (k :: K) =
      s.touched (s.num ip) [k] ∪ {b} ∪ s'.writes (s.num ip) K := by
  have hkeep : s.indirectOf (s.num ip) ≠ 0 →
      s'.indirectOf (s.num ip) = s.indirectOf (s.num ip) := hm.grown.keep _
  have hrest : ∀ x ∈ K, s'.blockAt (s.num ip) x = s.blockAt (s.num ip) x := fun x hx =>
    hm.blockAt_of_ne x (by rintro rfl; exact hK hx)
  have hb : s.blockAt (s.num ip) k ≠ 0 → s.blockAt (s.num ip) k = b := fun h0 =>
    (hm.grown.keep_blockAt h0).symm.trans hm.blockAt_eq
  have hind : ∀ x, (s'.AddsEntry (s.num ip) K ∧ s'.indirectOf (s.num ip) ≠ 0 ∧
      x = s'.indirectOf (s.num ip)) → x ∈ s.allocated (s.num ip) [k] ∨
      (s'.AddsEntry (s.num ip) K ∧ s.indirectOf (s.num ip) ≠ 0 ∧ x = s.indirectOf (s.num ip)) := by
    rintro x ⟨h1, h2, rfl⟩
    rcases hm.indirect_mem with h3 | h3
    · exact .inr ⟨h1, h3 ▸ h2, h3⟩
    · exact .inl h3
  ext x
  rw [Finset.mem_union, Finset.mem_union, Finset.mem_singleton, mem_writes, mem_writes, mem_touched,
    mem_touched, mem_touched, hm.allocated_cons hK, hm.addsEntry_cons hK, hm.grown.sb]
  constructor
  · rintro ((hx | ⟨c, hc, rfl⟩ | ⟨hx, h0, rfl⟩) | ⟨h0, c, hc, rfl⟩)
    · rcases mem_append.1 hx with hx | hx
      · exact .inl (Or.inl (Or.inl hx))
      · exact .inr (Or.inl (Or.inl hx))
    · rcases mem_append.1 hc with hc | hc
      · exact .inl (Or.inl (Or.inr (Or.inl ⟨c, hc, rfl⟩)))
      · exact .inr (Or.inl (Or.inr (Or.inl ⟨c, hc, rfl⟩)))
    · rcases hx with hx | hx
      · exact .inl (Or.inl (Or.inr (Or.inr ⟨hx, h0, rfl⟩)))
      · exact .inr (Or.inl (Or.inr (Or.inr ⟨hx, (hkeep h0).symm ▸ h0, (hkeep h0).symm⟩)))
    · rcases mem_cons.1 hc with rfl | hc
      · exact .inl (Or.inr (hb h0))
      · exact .inr (Or.inr ⟨h0, c, hc, hrest c hc⟩)
  · rintro (((hx | ⟨c, hc, rfl⟩ | ⟨hx, h0, rfl⟩) | rfl) | (hx | ⟨c, hc, rfl⟩ | hx) | ⟨h0,
      c, hc, rfl⟩)
    · exact .inl (Or.inl (mem_append_left _ hx))
    · exact .inl (Or.inr (Or.inl ⟨c, mem_append_left _ hc, rfl⟩))
    · exact .inl (Or.inr (Or.inr ⟨Or.inl hx, h0, rfl⟩))
    · rcases hm.block_mem with hx | hx
      · exact .inr ⟨hm.ne_zero, k, mem_cons_self, hx.symm⟩
      · exact .inl (Or.inl (mem_append_left _ hx))
    · exact .inl (Or.inl (mem_append_right _ hx))
    · exact .inl (Or.inr (Or.inl ⟨c, mem_append_right _ hc, rfl⟩))
    · rcases hind x hx with hx | ⟨h1, h2, rfl⟩
      · exact .inl (Or.inl (mem_append_left _ hx))
      · exact .inl (Or.inr (Or.inr ⟨Or.inr h1, h2, rfl⟩))
    · exact .inr ⟨h0, c, mem_cons_of_mem k hc, (hrest c hc).symm⟩

end Cons

/-- The blocks a transfer needs depend on the listing and the free blocks. -/
theorem newBlocks_congr (hrefs : s'.refs = s.refs) (i : ℕ) (K : List ℕ) :
    s'.newBlocks i K = s.newBlocks i K := by
  have hind : s'.indirectOf i = s.indirectOf i := congrFun hrefs _
  rw [newBlocks, newBlocks, hind]
  congr 1
  refine countP_congr fun k _ => ?_
  rw [blockAt, blockAt, hrefs]

theorem writes_congr (hrefs : s'.refs = s.refs) (hfree : s'.free = s.free) (hsb : s'.sb = s.sb)
    (i : ℕ) (K : List ℕ) : s'.writes i K = s.writes i K := by
  have hblock : ∀ k, s'.blockAt i k = s.blockAt i k := fun k => by rw [blockAt, blockAt, hrefs]
  have halloc : s'.allocated i K = s.allocated i K := by
    rw [allocated, allocated, hfree, newBlocks_congr hrefs]
  ext x
  simp only [mem_writes, mem_touched, halloc, hsb, AddsEntry, indirectOf, hblock, hrefs]

/-! ## Writing -/

/-- What the loop of `writei` has done once it has put `r` bytes of `src`, from
position `tot` on, at `cur`. -/
structure Written (ip : Fin NINODE) (src : ℕ → UInt8) (tot cur r : ℕ) (s s' : Vol τ) : Prop where
  /-- Only this file has changed. -/
  framed : Framed ip s s'
  /-- Not in size. -/
  size : (s'.inode ip).d.size = (s.inode ip).d.size
  /-- Its copy on disk is the old one. -/
  disk : ∀ i, i < s.sb.ninodes → s'.disk i = s.disk i
  /-- The bytes are in place, the others as before. -/
  bytes : ∀ o, s'.fileByte (s.num ip) o =
    if cur ≤ o ∧ o < cur + r then src (tot + (o - cur)) else s.fileByte (s.num ip) o
  /-- The blocks written are mapped. -/
  mapped : ∀ k ∈ span cur r, s'.blockAt (s.num ip) k ≠ 0
  /-- Blocks mapped before stay where they are. -/
  kept : ∀ k, s.blockAt (s.num ip) k ≠ 0 → s'.blockAt (s.num ip) k = s.blockAt (s.num ip) k
  /-- No other blocks are mapped. -/
  only : ∀ k, k ∉ span cur r → s'.blockAt (s.num ip) k = s.blockAt (s.num ip) k
  /-- If nothing was missing the inode is unchanged. -/
  same : s.newBlocks (s.num ip) (span cur r) = 0 → s'.inode = s.inode
  /-- There were enough free blocks. -/
  enough : s.newBlocks (s.num ip) (span cur r) ≤ s.free.length
  /-- The free blocks left. -/
  free : s'.free = s.free.drop (s.newBlocks (s.num ip) (span cur r))
  /-- The blocks logged. -/
  passed : ∃ l, s'.passed = s.passed ++ l ∧ l.toFinset = s.writes (s.num ip) (span cur r)

theorem Sound.written_nil (h : Sound s) (src : ℕ → UInt8) (tot cur : ℕ) :
    Written ip src tot cur 0 s s where
  framed := (Grown.refl h ip).framed
  size := rfl
  disk _ _ := rfl
  bytes o := by rw [if_neg (by omega)]
  mapped k hk := by simp at hk
  kept _ _ := rfl
  only _ _ := rfl
  same _ := rfl
  enough := by simp [newBlocks]
  free := by simp [newBlocks]
  passed := by
    refine ⟨[], (List.append_nil _).symm, ?_⟩
    ext x
    simp [mem_writes, mem_touched, allocated, newBlocks, AddsEntry]

/-- The bytes of a block after one pass. -/
theorem byte_pass {d e : Block} {src : ℕ → UInt8} {tot cur m o : ℕ}
    (hm : m ≤ BSIZE - cur % BSIZE) (ho : o / BSIZE = cur / BSIZE)
    (hd : d = e.splice (cur % BSIZE) m fun i => src (tot + i)) : d.byte (o % BSIZE) =
      if cur ≤ o ∧ o < cur + m then src (tot + (o - cur)) else e.byte (o % BSIZE) := by
  change o / 512 = cur / 512 at ho
  change m ≤ 512 - cur % 512 at hm
  rw [hd, Block.byte_splice (Nat.mod_lt o (by decide))]
  split_ifs with hin
  · rw [Lib.splice_of_mem (show cur % 512 ≤ o % 512 by omega)
      (show o % 512 < cur % 512 + m by omega), show o % BSIZE - cur % BSIZE = o - cur from
      (show o % 512 - cur % 512 = o - cur by omega)]
  · exact Lib.splice_of_not_mem (show o % 512 < cur % 512 ∨ cur % 512 + m ≤ o % 512 by omega)

/-- One pass of the loop, and the rest of them. -/
theorem Written.cons {src : ℕ → UInt8} {tot cur r m b : ℕ} (hr : 0 < r)
    (hm : m = min r (BSIZE - cur % BSIZE)) (hmap : Mapped ip (cur / BSIZE) s b s') {d : Block}
    (hd : d = (s'.blk b).splice (cur % BSIZE) m fun i => src (tot + i))
    (hw : Written ip src (tot + m) (cur + m) (r - m) (s'.put b d) s'') :
    Written ip src tot cur r s s'' := by
  have hbs : BSIZE = 512 := rfl
  have hspan := span_cons hr hm
  have hnum := hmap.grown.num
  have hK : cur / BSIZE ∉ span (cur + m) (r - m) :=
    (nodup_cons.1 (hspan ▸ nodup_span cur r)).1
  obtain ⟨hfr, hrefs, hfree, hdisk, hbyte⟩ :=
    hmap.grown.sound.framed_write ip (hnum.symm ▸ hmap.blockAt_eq) hmap.ne_zero d
  have hblock : ∀ x, (s'.put b d).blockAt (s.num ip) x = s'.blockAt (s.num ip) x := fun x => by
    rw [blockAt, blockAt, hrefs]
  have hnum' : (s'.put b d).num ip = s.num ip := hnum
  obtain ⟨g1, g2, g3, g4, g5, g6, g7, g8, g0, g9, l, g10, g11⟩ := hw
  rw [hnum'] at g4 g5 g6 g7 g8 g0 g9 g11
  rw [hnum] at hbyte
  rw [newBlocks_congr hrefs] at g8 g0 g9
  rw [writes_congr hrefs hfree rfl] at g11
  have hnew := hmap.newBlocks_cons hK
  refine
    { framed := (hmap.grown.framed.trans hfr).trans g1
      size := g2.trans hmap.grown.size
      disk := ?_
      bytes := ?_
      mapped := ?_
      kept := ?_
      only := ?_
      same := ?_
      enough := ?_
      free := ?_
      passed := ?_ }
  · intro i hi
    have hi' : i < s'.sb.ninodes := hmap.grown.sb ▸ hi
    rw [g3 i hi', hdisk i hi', hmap.grown.disk i hi]
  · intro o
    rw [g4, hbyte, hmap.grown.fileByte]
    have hpass : o / BSIZE = cur / BSIZE → d.byte (o % BSIZE) = if cur ≤ o ∧ o < cur + m then
        src (tot + (o - cur)) else s.fileByte (s.num ip) o := by
      intro ho
      rw [byte_pass (by omega) ho hd, ← hmap.grown.fileByte, fileByte, ho, hmap.blockAt_eq,
        if_neg hmap.ne_zero]
    by_cases h1 : cur + m ≤ o ∧ o < cur + m + (r - m)
    · rw [if_pos h1, if_pos (by omega), show tot + m + (o - (cur + m)) = tot + (o - cur) by omega]
    · rw [if_neg h1]
      by_cases ho : o / BSIZE = cur / BSIZE
      · rw [if_pos ho, hpass ho]
        by_cases h2 : cur ≤ o ∧ o < cur + m
        · rw [if_pos h2, if_pos (by omega)]
        · rw [if_neg h2, if_neg (by omega)]
      · have h2 : ¬(cur ≤ o ∧ o < cur + m) := by
          change ¬o / 512 = cur / 512 at ho
          change m = min r (512 - cur % 512) at hm
          omega
        rw [if_neg ho, if_neg (by omega)]
  · intro k hk
    rw [hspan] at hk
    rcases mem_cons.1 hk with rfl | hk
    · have h1 : s'.blockAt (s.num ip) (cur / BSIZE) ≠ 0 := hmap.blockAt_eq ▸ hmap.ne_zero
      rw [g6 _ (by rw [hblock]; exact h1), hblock]
      exact h1
    · exact g5 k hk
  · intro k h0
    have h1 := hmap.grown.keep_blockAt h0
    rw [g6 k (by rw [hblock, h1]; exact h0), hblock, h1]
  · intro k hk
    rw [hspan, mem_cons, not_or] at hk
    rw [g7 k hk.2, hblock, hmap.blockAt_of_ne k hk.1]
  · intro h0
    rw [hspan, hnew] at h0
    have h1 := hmap.same (by omega)
    rw [g8 (by omega), ← h1]
    rfl
  · have h1 := hmap.enough
    rw [hfree, hmap.free, length_drop] at g0
    rw [hspan, hnew]
    omega
  · rw [g9, hfree, hmap.free, drop_drop, hspan, hnew]
  · obtain ⟨l', h1, h2⟩ := hmap.passed
    refine ⟨l' ++ [b] ++ l, ?_, ?_⟩
    · rw [g10, passed_put, h1]
      simp
    · rw [toFinset_append, toFinset_append, h2, g11, hspan, hmap.writes_cons hK]
      simp

/-- **The loop of `writei` overwrites a range of the file.** -/
theorem wp_writeLoop (h : Sound s) (hl : s.Loaded ip) (ht : (s.inode ip).d.itype ≠ 0)
    (hidle : ∀ x, s.held x = none) (src : ℕ → UInt8) (n fuel tot cur : ℕ) (hfuel : n - tot ≤ fuel)
    (hend : cur + (n - tot) ≤ MAXFILE * BSIZE)
    (hspare : s.Spare E (s.newBlocks (s.num ip) (span cur (n - tot))))
    (hroom : s.log.RoomOr E F) (hF : s.writes (s.num ip) (span cur (n - tot)) ⊆ F) :
    (writeLoop me ip src n fuel tot cur).wp E (fun c s' => c = cur + (n - tot) ∧
      Written ip src tot cur (n - tot) s s' ∧ s'.log.RoomOr E F) s := by
  induction fuel generalizing s tot cur with
  | zero =>
    rw [Nat.le_zero.1 hfuel]
    exact ⟨rfl, h.written_nil src tot cur, hroom⟩
  | succ fuel ih =>
    rw [writeLoop]
    by_cases hlt : tot < n
    · have hr : 0 < n - tot := by omega
      generalize hm : min (n - tot) (BSIZE - cur % BSIZE) = m
      have hspan := span_cons hr hm.symm
      have hmod : cur % BSIZE < BSIZE := Nat.mod_lt _ (by decide)
      have hK : cur / BSIZE ∉ span (cur + m) (n - tot - m) :=
        (nodup_cons.1 (hspan ▸ nodup_span cur (n - tot))).1
      have hkmax : cur / BSIZE < MAXFILE :=
        lt_of_mem_span (hspan ▸ mem_cons_self) hend
      simp only [if_pos hlt, bind_eq]
      rw [hspan] at hspare hF
      rw [wp_bind]
      have hspare₁ := hspare.mono (newBlocks_singleton_le s (s.num ip) (cur / BSIZE) _)
      have hF₁ : s.touched (s.num ip) [cur / BSIZE] ⊆ F :=
        Finset.Subset.trans (touched_singleton_subset s _ _ _) hF
      refine wp_mono (wp_bmap h hl ht hidle hkmax hspare₁ hroom hF₁) ?_
      rintro b s₁ ⟨hmap, hroom₁⟩
      have hg := hmap.grown
      have hidle₁ : ∀ x, s₁.held x = none := fun x => by rw [hg.held]; exact hidle x
      rw [hmap.writes_cons hK] at hF
      rw [hmap.newBlocks_cons hK] at hspare
      have hb : b ∈ F := hF (by simp)
      apply wp_update hroom₁ (hidle₁ b)
      obtain ⟨hfr, hrefs, hfr₂, -, -⟩ := hg.sound.framed_write ip
        (hg.num.symm ▸ hmap.blockAt_eq) hmap.ne_zero
        ((s₁.blk b).splice (cur % BSIZE) m fun i => src (tot + i))
      have hrest : n - (tot + m) = n - tot - m := by omega
      have hnum : (s₁.put b ((s₁.blk b).splice (cur % BSIZE) m fun i => src (tot + i))).num ip =
        s.num ip := hg.num
      refine wp_mono (ih hfr.sound (hfr.loaded (hg.loaded hl)) ?_ hidle₁ (tot + m) (cur + m)
        (by omega) (by omega) ?_ (hroom₁.recorded hb) ?_) ?_
      · rw [hfr.itype, hg.itype]
        exact ht
      · refine hspare.imp_left fun hle => ?_
        rw [hrest, hnum, newBlocks_congr hrefs, hfr₂, hmap.free, length_drop]
        omega
      · rw [hrest, hnum, writes_congr hrefs hfr₂ rfl]
        exact Finset.Subset.trans Finset.subset_union_right hF
      · rintro c s' ⟨rfl, hw, hr'⟩
        rw [hrest] at hw
        exact ⟨by omega, hw.cons hr hm.symm hmap rfl, hr'⟩
    · rw [if_neg hlt, show n - tot = 0 by omega]
      exact ⟨rfl, h.written_nil src tot cur, hroom⟩

/-! ## `iupdate` and `writei` -/

/-- The volume after `iupdate`. -/
def updated (s : Vol τ) (ip : Fin NINODE) : Vol τ :=
  s.put (iblock (s.num ip) s.sb)
    (putDinode (s.num ip % IPB) (s.inode ip).d (s.blk (iblock (s.num ip) s.sb)))

theorem wp_iupdate (hroom : s.log.RoomOr E F) (hheld : s.held (iblock (s.num ip) s.sb) = none)
    {Q : Unit → Vol τ → Prop} (hQ : Q () (s.updated ip)) : (iupdate me ip).wp E Q s := by
  have h : ((read me (iblock (s.num ip) s.sb)).bind fun _ => (modify (iblock (s.num ip) s.sb)
      fun d => putDinode (s.num ip % IPB) (s.inode ip).d d).bind fun _ =>
      (logWrite (iblock (s.num ip) s.sb)).bind fun _ =>
      (release (iblock (s.num ip) s.sb)).bind Prog.ret).wp E Q s :=
    wp_update hroom hheld _ hQ
  simp only [bind_ret, wp_bind, wp_read, wp_modify] at h
  simp only [iupdate, bind_eq, wp_bind, wp_look, wp_read, wp_change]
  exact h

/-- Writing the inode back changes no file. -/
theorem Sound.updated (h : Sound s) (hl : s.Loaded ip) : Framed ip s (s.updated ip) ∧
    (s.updated ip).refs = s.refs ∧ (s.updated ip).free = s.free ∧
      (s.updated ip).disk (s.num ip) = (s.inode ip).d ∧
      ∀ i o, (s.updated ip).fileByte i o = s.fileByte i o := by
  have hn := h.inums ip hl.1
  have hrefs : (s.updated ip).refs = s.refs := h.refs_writeBack hl _
  have hdisk : ∀ i, (s.updated ip).disk i = if i = s.num ip then (s.inode ip).d else s.disk i :=
    fun i => disk_putDinode s (s.num ip) i _
  have hblk : ∀ k, (s.updated ip).blk (s.refs k) = s.blk (s.refs k) := fun k =>
    blk_put_of_ne (h.refs_ne_iblock hn k) _
  refine ⟨?_, hrefs, ?_, by rw [hdisk, if_pos rfl], fun i o => ?_⟩
  · exact
      { sound := (h.writeBack hl _).logged _
        sb := rfl
        held := rfl
        file := rfl
        slots := fun _ _ => rfl
        inode := ⟨_, _, rfl⟩
        disk := fun i _ hi => by rw [hdisk, if_neg hi]
        others := fun i p _ => congrFun hrefs (i, p)
        blk := fun i p _ _ => hblk (i, p) }
  · refine filter_congr fun x _ => ?_
    rw [show (s.updated ip).bit x = s.bit x from
      bit_setBlk_of_ne (h.wf.iblock_ne_bblock hn x).symm _]
  · rw [fileByte, fileByte, blockAt, blockAt, hrefs]
    cases Place.nth (o / BSIZE) with
    | none => rfl
    | some p => rw [Option.elim_some, hblk]

/-- Changing the size of a loaded inode changes no file's bytes. -/
theorem Sound.resized (h : Sound s) (hl : s.Loaded ip) (n : UInt32) :
    Framed ip s (s.modDinode ip fun d => { d with size := n }) ∧
      (s.modDinode ip fun d => { d with size := n }).refs = s.refs := by
  have hrefs : (s.modDinode ip fun d => { d with size := n }).refs = s.refs := by
    funext ⟨i, p⟩
    by_cases hi : i = s.num ip
    · subst hi
      rw [h.refs_modDinode_self hl]
      by_cases ht : (s.inode ip).d.itype ≠ 0
      · rw [h.refs_num hl ht]
        exact if_pos ht
      · rw [refs_of_not_inUse (mt (h.inUse_num hl).1 ht)]
        exact if_neg ht
    · exact refs_modDinode_of_ne hi _ p
  refine ⟨?_, hrefs⟩
  exact
    { sound := h.setFields hl (Or.inl rfl) rfl
      sb := rfl
      held := rfl
      file := rfl
      slots := fun jp hj => inode_modDinode_of_ne hj _
      inode := ⟨_, _, inode_modDinode_self ip _⟩
      disk := fun _ _ _ => rfl
      others := fun i p _ => congrFun hrefs (i, p)
      blk := fun _ _ _ _ => rfl }

/-- `writei` moves the end of the file. -/
def Extends (s : Vol τ) (ip : Fin NINODE) (off n : ℕ) : Prop :=
  0 < n ∧ (s.inode ip).d.size.toNat < off + n

instance (s : Vol τ) (ip : Fin NINODE) (off n : ℕ) : Decidable (s.Extends ip off n) :=
  inferInstanceAs (Decidable (_ ∧ _))

/-- The blocks `writei` logs. -/
def writeSet (s : Vol τ) (ip : Fin NINODE) (off n : ℕ) : Finset ℕ :=
  s.writes (s.num ip) (span off n) ∪
    if s.Extends ip off n then {iblock (s.num ip) s.sb} else ∅

/-- What `writei` has done when it returns `n`. -/
structure Overwritten (ip : Fin NINODE) (src : ℕ → UInt8) (off n : ℕ) (s s' : Vol τ) : Prop where
  /-- Only this file has changed. -/
  framed : Framed ip s s'
  /-- Its size. -/
  size : (s'.inode ip).d.size.toNat = max (s.inode ip).d.size.toNat (off + n)
  /-- Its bytes. -/
  bytes : ∀ o, s'.fileByte (s.num ip) o =
    if off ≤ o ∧ o < off + n then src (o - off) else s.fileByte (s.num ip) o
  /-- The blocks written are mapped. -/
  mapped : ∀ k ∈ span off n, s'.blockAt (s.num ip) k ≠ 0
  /-- Blocks mapped before stay where they are. -/
  kept : ∀ k, s.blockAt (s.num ip) k ≠ 0 → s'.blockAt (s.num ip) k = s.blockAt (s.num ip) k
  /-- The copy on disk follows when the file grows. -/
  disk_of_extends : s.Extends ip off n → s'.disk (s.num ip) = (s'.inode ip).d
  /-- Otherwise it is the old one, and so is the inode if no block was missing. -/
  of_not_extends : ¬s.Extends ip off n → s'.disk (s.num ip) = s.disk (s.num ip) ∧
    (s.newBlocks (s.num ip) (span off n) = 0 → s'.inode = s.inode)
  /-- There were enough free blocks. -/
  enough : s.newBlocks (s.num ip) (span off n) ≤ s.free.length
  /-- The free blocks left. -/
  free : s'.free = s.free.drop (s.newBlocks (s.num ip) (span off n))
  /-- The blocks logged. -/
  passed : ∃ l, s'.passed = s.passed ++ l ∧ l.toFinset = s.writeSet ip off n

/-- The part of `writei` after its loop, where the file grows. -/
theorem Written.overwritten_of_extends {src : ℕ → UInt8} {off n : ℕ} (hl : s.Loaded ip)
    (hw : Written ip src 0 off n s s') (he : s.Extends ip off n) (hlt : off + n < 2 ^ 32) :
    Overwritten ip src off n s
      ((s'.modDinode ip fun d => { d with size := UInt32.ofNat (off + n) }).updated ip) := by
  have hl' := hw.framed.loaded hl
  have hnum := hw.framed.num
  obtain ⟨hfr, hrefs⟩ := hw.framed.sound.resized hl' (UInt32.ofNat (off + n))
  have hinode := inode_modDinode_self (s := s') ip
    (fun d => { d with size := UInt32.ofNat (off + n) })
  have hbytes : ∀ i o, (s'.modDinode ip fun d =>
      { d with size := UInt32.ofNat (off + n) }).fileByte i o = s'.fileByte i o := fun i o => by
    rw [fileByte, fileByte, blockAt, blockAt, hrefs]
    rfl
  have hfree : (s'.modDinode ip fun d => { d with size := UInt32.ofNat (off + n) }).free =
    s'.free := rfl
  have hpassed : (s'.modDinode ip fun d => { d with size := UInt32.ofNat (off + n) }).passed =
    s'.passed := rfl
  have hsb : (s'.modDinode ip fun d => { d with size := UInt32.ofNat (off + n) }).sb = s'.sb := rfl
  generalize (s'.modDinode ip fun d => { d with size := UInt32.ofNat (off + n) }) = s₂ at *
  have hnum₂ : s₂.num ip = s.num ip := hfr.num.trans hnum
  obtain ⟨hfr₃, hrefs₃, hfree₃, hdisk₃, hbytes₃⟩ := hfr.sound.updated (hfr.loaded hl')
  have hblock : ∀ i k, (s₂.updated ip).blockAt i k = s'.blockAt i k := fun i k => by
    rw [blockAt, blockAt, hrefs₃, hrefs]
  rw [hnum₂] at hdisk₃
  refine
    { framed := (hw.framed.trans hfr).trans hfr₃
      size := ?_
      bytes := fun o => ?_
      mapped := fun k hk => by rw [hblock]; exact hw.mapped k hk
      kept := fun k hk => by rw [hblock]; exact hw.kept k hk
      disk_of_extends := fun _ => hdisk₃
      of_not_extends := fun hne => absurd he hne
      enough := hw.enough
      free := by rw [hfree₃, hfree, hw.free]
      passed := ?_ }
  · have hsz : ((s₂.updated ip).inode ip).d.size = UInt32.ofNat (off + n) := by
      change (s₂.inode ip).d.size = _
      rw [hinode]
    have he2 := he.2
    rw [hsz, UInt32.toNat_ofNat_of_lt' hlt]
    omega
  · rw [hbytes₃, hbytes, hw.bytes, Nat.zero_add]
  · obtain ⟨l, h1, h2⟩ := hw.passed
    refine ⟨l ++ [iblock (s.num ip) s.sb], ?_, ?_⟩
    · rw [updated, passed_put, hnum₂, hsb, hw.framed.sb, hpassed, h1, append_assoc]
    · rw [toFinset_append, h2, writeSet, if_pos he]
      rfl

/-- The part of `writei` after its loop, where the file does not grow. -/
theorem Written.overwritten_of_not_extends {src : ℕ → UInt8} {off n : ℕ}
    (hw : Written ip src 0 off n s s') (he : ¬s.Extends ip off n)
    (hoff : off ≤ (s.inode ip).d.size.toNat) (hnum : s.num ip < s.sb.ninodes) :
    Overwritten ip src off n s s' := by
  refine
    { framed := hw.framed
      size := ?_
      bytes := fun o => by rw [hw.bytes, Nat.zero_add]
      mapped := hw.mapped
      kept := hw.kept
      disk_of_extends := fun h => absurd h he
      of_not_extends := fun _ => ⟨hw.disk _ hnum, hw.same⟩
      enough := hw.enough
      free := hw.free
      passed := ?_ }
  · rw [hw.size]
    rw [Extends] at he
    omega
  · obtain ⟨l, h1, h2⟩ := hw.passed
    refine ⟨l, h1, ?_⟩
    rw [h2, writeSet, if_neg he, Finset.union_empty]

/-- `writei` refuses what does not fit. -/
theorem wp_writei_bad (D : Devsw τ) (hdev : (s.inode ip).d.isDev = false) (src : ℕ → UInt8)
    {off n : ℕ} (hbad : (s.inode ip).d.size.toNat < off ∨ (off + n) % 2 ^ 32 < off ∨
      MAXFILE * BSIZE < off + n) {Q : ℤ → Vol τ → Prop} (hQ : Q (-1) s) :
    (writei D me ip src off n).wp E Q s := by
  simp only [writei, bind_eq, wp_bind, wp_look, hdev, Bool.false_eq_true, if_false]
  split_ifs with h1 h2
  · exact hQ
  · exact hQ
  · rw [not_or] at h1
    exact absurd ((hbad.resolve_left h1.1).resolve_left h1.2) h2

/-- **`writei` overwrites a range of the file.** -/
theorem wp_writei (D : Devsw τ) (h : Sound s) (hl : s.Loaded ip) (ht : (s.inode ip).d.itype ≠ 0)
    (hdev : (s.inode ip).d.isDev = false) (hidle : ∀ x, s.held x = none) (src : ℕ → UInt8)
    {off n : ℕ} (hoff : off ≤ (s.inode ip).d.size.toNat) (hmax : off + n ≤ MAXFILE * BSIZE)
    (hspare : s.Spare E (s.newBlocks (s.num ip) (span off n))) (hroom : s.log.RoomOr E F)
    (hF : s.writeSet ip off n ⊆ F) :
    (writei D me ip src off n).wp E
      (fun r s' => r = n ∧ Overwritten ip src off n s s' ∧ s'.log.RoomOr E F) s := by
  have hmax' : off + n ≤ 71680 := hmax
  have hnum := h.inums ip hl.1
  have hr : asI32 n = n := asI32_of_lt (by omega)
  simp only [writei, bind_eq, wp_bind, wp_look, hdev, Bool.false_eq_true, if_false]
  rw [if_neg (by omega), if_neg (by omega), wp_bind]
  refine wp_mono (wp_writeLoop h hl ht hidle src n n 0 off (Nat.sub_le n 0)
    (by rw [Nat.sub_zero]; exact hmax) (by rw [Nat.sub_zero]; exact hspare) hroom
    (by rw [Nat.sub_zero]; exact Finset.Subset.trans Finset.subset_union_left hF)) ?_
  rintro c s' ⟨rfl, hw, hroom'⟩
  rw [Nat.sub_zero] at hw ⊢
  simp only [wp_bind, wp_look]
  by_cases he : s.Extends ip off n
  · have hc : 0 < n ∧ (s'.inode ip).d.size.toNat < off + n := by rw [hw.size]; exact he
    have hF' : iblock (s.num ip) s.sb ∈ F := by
      apply hF
      rw [writeSet, if_pos he]
      exact Finset.mem_union_right _ (Finset.mem_singleton_self _)
    rw [if_pos hc]
    simp only [wp_bind, wp_change]
    have hnum₂ : (s'.modDinode ip fun d => { d with size := UInt32.ofNat (off + n) }).num ip =
        s.num ip := (modDinode_frame (s := s') ip ip _).1.trans hw.framed.num
    refine wp_iupdate (s := s'.modDinode ip fun d => { d with size := UInt32.ofNat (off + n) })
      hroom' ?_ ?_
    · change s'.held _ = none
      rw [hw.framed.held]
      exact hidle _
    · refine ⟨hr, hw.overwritten_of_extends hl he (by omega), ?_⟩
      change (s'.log.recorded _).RoomOr E F
      apply hroom'.recorded
      rw [hnum₂]
      change iblock (s.num ip) s'.sb ∈ F
      rw [hw.framed.sb]
      exact hF'
  · have hc : ¬(0 < n ∧ (s'.inode ip).d.size.toNat < off + n) := by rw [hw.size]; exact he
    rw [if_neg hc]
    exact ⟨hr, hw.overwritten_of_not_extends he hoff hnum, hroom'⟩

end Vol

end Xv6.Fs
