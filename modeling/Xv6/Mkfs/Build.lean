import Xv6.Mkfs.Image

/-!
# What `mkfs` writes

The run of `main` over the files of the command line.

* `Built` — what the image holds once some of the files are added: the root
  directory with an entry for each, and each file with its bytes.
* `main_built` — it holds at the end of every run that succeeds on at most 198
  files, and the image on disk is then the volume it describes.
* `main_ok` — a run over files that fit succeeds.
-/

namespace Xv6.Mkfs

open Lib Fs Fs.Vol Function
open List hiding span

/-! ## Contents of a file -/

/-- Inode `i` is of type `t`, has one link and holds the bytes `c`. -/
structure Holds (s : Vol Unit) (i : ℕ) (t : UInt16) (c : List UInt8) : Prop where
  /-- Its type. -/
  itype : (s.dinode i).itype = t
  /-- One link. -/
  nlink : (s.dinode i).nlink = 1
  /-- Its size. -/
  size : (s.dinode i).size.toNat = c.length
  /-- Its bytes. -/
  bytes : ∀ o, o < c.length → s.fileByte i o = c.getD o 0
  /-- All of its blocks are there. -/
  holes : s.NoHoles i

namespace Holds

variable {s s' : Vol Unit} {i j : ℕ} {t : UInt16} {c data : List UInt8} {d : Dinode}

theorem appended (h : Holds s i t c) (ha : Tool.Appended i data s s') :
    Holds s' i t (c ++ data) where
  itype := ha.kind.1.trans h.itype
  nlink := ha.kind.2.trans h.nlink
  size := by rw [ha.size, h.size, length_append]
  bytes o ho := by
    rw [length_append] at ho
    rw [ha.bytes, h.size]
    split_ifs with hin
    · rw [getD_append_right _ _ _ _ hin.1]
    · have hlt : o < c.length := by omega
      rw [getD_append _ _ _ _ hlt, h.bytes o hlt]
  holes k hk := by
    have hb : BSIZE = 512 := rfl
    have hmapped := ha.mapped k
    rw [ha.size, h.size] at hk
    rw [h.size, mem_span] at hmapped
    by_cases hold : k * BSIZE < c.length
    · exact ha.kept k (h.holes k (h.size.symm ▸ hold))
    · apply hmapped
      simp only [hb] at *
      omega

theorem appended_of_ne (h : Holds s j t c) (ha : Tool.Appended i data s s') (hj : j ≠ i)
    (hn : j < s.sb.ninodes) : Holds s' j t c where
  itype := by rw [ha.dinode j hn hj]; exact h.itype
  nlink := by rw [ha.dinode j hn hj]; exact h.nlink
  size := by rw [ha.dinode j hn hj]; exact h.size
  bytes o ho := by rw [ha.fileByte j o hj]; exact h.bytes o ho
  holes k hk := by
    rw [ha.dinode j hn hj] at hk
    rw [ha.blockAt j k hj]
    exact h.holes k hk

theorem stored_of_ne (h : Holds s j t c) (ha : Tool.Stored i d s s') (hj : j ≠ i) :
    Holds s' j t c where
  itype := by rw [ha.dinode j hj]; exact h.itype
  nlink := by rw [ha.dinode j hj]; exact h.nlink
  size := by rw [ha.dinode j hj]; exact h.size
  bytes o ho := by rw [ha.fileByte j o]; exact h.bytes o ho
  holes k hk := by
    rw [ha.dinode j hj] at hk
    rw [blockAt, ha.refs]
    exact h.holes k hk

theorem stored (ha : Tool.Stored i { Dinode.zero with itype := t, nlink := 1, size := 0 } s s') :
    Holds s' i t [] where
  itype := by rw [ha.self]
  nlink := by rw [ha.self]
  size := by rw [ha.self]; rfl
  bytes o ho := absurd ho (Nat.not_lt_zero o)
  holes k hk := by
    rw [ha.self] at hk
    exact absurd hk (Nat.not_lt_zero _)

end Holds

namespace Tool

variable {m m' : Tool} {data : List UInt8} {i : ℕ} {t : UInt16}

/-! ## The empty image -/

theorem zeroed_eq (n : ℕ) : zeroed n = { new with nsec := n } := by
  induction n with
  | zero =>
    rw [zeroed]
    rfl
  | succ n ih =>
    rw [zeroed] at ih
    rw [zeroed, range_succ, foldl_append, ih]
    have hsec : update (fun _ => Block.zero) n Block.zero = fun _ => Block.zero :=
      update_eq_self n fun _ => Block.zero
    change Tool.mk (max n (n + 1)) (update (fun _ => Block.zero) n Block.zero) _
      _ _ _ _ = _
    rw [hsec, Nat.max_eq_right (Nat.le_succ n)]
    rfl

theorem start_eq : start = { new with
    nsec := FSSIZE
    sector := update (fun _ => Block.zero) 1 (superSector layout) } := by
  rw [start, zeroed_eq]
  rfl

theorem sector_start {x : ℕ} (hx : x ≠ 1) : start.sector x = Block.zero := by
  rw [start_eq]
  change update (fun _ => Block.zero) 1 (superSector layout) x = _
  rw [update_of_ne hx]

theorem ofBlock_superSector : Superblock.ofBlock (superSector layout) = layout := by
  have hw : ∀ i, i < 7 → (superSector layout).word i = [layout.size, layout.nblocks, layout.ninodes,
      layout.nlog, layout.logstart, layout.inodestart, layout.bmapstart].getD i 0 := by
    intro i hi
    rw [superSector, Block.word_putWords _ _ _ (by decide) (show i < 128 by omega)]
    exact if_pos ⟨Nat.zero_le i, by simpa using hi⟩
  simp only [Superblock.ofBlock, hw 0 (by omega), hw 1 (by omega), hw 2 (by omega),
    hw 3 (by omega), hw 4 (by omega), hw 5 (by omega), hw 6 (by omega)]
  rfl

theorem dinodeAt_zero (k : ℕ) : dinodeAt Block.zero k = Dinode.zero := by
  simp [dinodeAt, Dinode.zero]

theorem plain_start : start.Plain := by
  have hfb : start.freeBlock = nMeta := by rw [start_eq]; rfl
  refine ⟨by rw [start_eq], by rw [start_eq]; rfl, hfb.ge, by rw [hfb]; decide, fun b hb => ?_⟩
  rw [hfb] at hb
  apply sector_start
  change 59 ≤ b at hb
  omega

theorem dinode_start {j : ℕ} (hj : j < 208) : (start.vol).dinode j = Dinode.zero := by
  have hblk : (start.vol).blk (Fs.iblock j (start.vol).sb) = Block.zero := by
    change start.shown (start.iblock j) = _
    rw [plain_start.shown_eq, iblock, plain_start.sb]
    change (if j / 8 + 32 = 58 then _ else start.sector (j / 8 + 32)) = _
    rw [if_neg (by omega), sector_start (by omega)]
  rw [dinode_vol, disk, hblk, dinodeAt_zero]

/-- The empty image is consistent. -/
theorem shows_start : start.Shows start.vol := by
  have hfb : start.freeBlock = nMeta := by rw [start_eq]; rfl
  have hblk1 : (start.vol).blk 1 = superSector layout := by
    change start.shown 1 = _
    rw [plain_start.shown_eq, if_neg (by decide), start_eq]
    exact update_self 1 (superSector layout) fun _ => Block.zero
  have hsb : (start.vol).sb = layout := plain_start.sb
  have hbit : ∀ b, b < nMeta → (start.vol).bit b = true := by
    intro b hb
    have hb' : b < 59 := hb
    have hmod : b % BPB = b := Nat.mod_eq_of_lt (show b < 4096 by omega)
    rw [Vol.bit, hsb, bblock_layout (show b < 2000 by omega), hmod]
    change (start.shown 58).bit b = true
    rw [plain_start.shown_eq, if_pos rfl, hfb, bit_bitmap _ (show b < 512 * 8 by omega)]
    exact decide_eq_true hb
  have hrefs : ∀ k, (start.vol).refs k = 0 := by
    rintro ⟨j, p⟩
    refine refs_of_not_inUse (fun hu => hu.2 ?_) p
    have hlt : j < 200 := lt_of_lt_of_eq hu.1 (by rw [hsb]; rfl)
    rw [dinode_start (by omega)]
    rfl
  refine ⟨plain_start, rfl, hsb, ?_, fun b hb hb' => absurd hb' (by rw [hfb]; omega)⟩
  exact
    { wf := hsb ▸ layout_wf
      super := by rw [hblk1, hsb, ofBlock_superSector]
      meta_marked := fun b hb => hbit b (by rw [hsb] at hb; exact hb)
      refs := ⟨fun k hk => absurd (hrefs k) hk, fun k k' _ hk => absurd (hrefs k) hk⟩
      slots := fun jp kp hj => absurd hj (Nat.lt_irrefl 0)
      inums := fun jp hj => absurd hj (Nat.lt_irrefl 0) }

/-! ## The operations of `main` -/

theorem ialloc_stored (h : m.Shows m.vol) (hi : m.freeInode < 208)
    (hold : m.freeInode < 200 → ((m.vol).dinode m.freeInode).itype = 0) {r : ℕ × Tool}
    (hok : m.ialloc t = .ok r) : r.1 = m.freeInode ∧ r.2.Shows r.2.vol ∧
      Stored m.freeInode { Dinode.zero with itype := t, nlink := 1, size := 0 } m.vol r.2.vol := by
  obtain ⟨m', hw, hok⟩ := bind_eq_ok.1 hok
  cases hok
  have hsh : ({ m with freeInode := m.freeInode + 1 } : Tool).Shows
      ({ m with freeInode := m.freeInode + 1 } : Tool).vol :=
    ⟨⟨h.plain.nsec, h.plain.sb, h.plain.le, h.plain.le_size, h.plain.fresh⟩, rfl, h.sb, h.sound,
      h.covered⟩
  exact ⟨rfl, hsh.store hi hold (fun _ => rfl) hw⟩

/-- The entry for inode `inum` under a name. -/
def entry (inum : ℕ) (name : List UInt8) : Dirent :=
  { inum := UInt16.ofNat inum, name := setName name }

@[simp] theorem length_asBytes (de : Dirent) : (asBytes de).length = 16 := by simp [asBytes]

theorem Shows.place (h : m.Shows m.vol) (l : List ℕ) :
    ({ m with placed := l } : Tool).Shows ({ m with placed := l } : Tool).vol :=
  ⟨⟨h.plain.nsec, h.plain.sb, h.plain.le, h.plain.le_size, h.plain.fresh⟩, rfl, h.sb, h.sound,
    h.covered⟩

theorem addEntry_appended (h : m.Shows m.vol) {root inum : ℕ} {name : List UInt8}
    (hi : root < 200) (ht : ((m.vol).dinode root).itype ≠ 0)
    (hok : m.addEntry root inum name = .ok m') :
    m'.Shows m'.vol ∧ Appended root (asBytes (entry inum name)) m.vol m'.vol :=
  iappend_appended (m := { m with placed := m.placed ++ [inum % 65536] })
    (h.place (m.placed ++ [inum % 65536])) hi ht hok

/-! ## Numbers handed out -/

/-- What allocating blocks leaves alone. -/
def Kept (m m' : Tool) : Prop :=
  m'.freeInode = m.freeInode ∧ m'.wrote = m.wrote ∧ m'.placed = m.placed ∧ m'.sb = m.sb

theorem Kept.refl (m : Tool) : Kept m m := ⟨rfl, rfl, rfl, rfl⟩

theorem Kept.trans {m'' : Tool} (h : Kept m m') (h' : Kept m' m'') : Kept m m'' :=
  ⟨h'.1.trans h.1, h'.2.1.trans h.2.1, h'.2.2.1.trans h.2.2.1, h'.2.2.2.trans h.2.2.2⟩

theorem mapAddr_kept (m : Tool) (din : Dinode) (j : Fin (NDIRECT + 1)) :
    Kept m (m.mapAddr din j).2 := by
  rw [mapAddr]
  split_ifs <;> exact ⟨rfl, rfl, rfl, rfl⟩

theorem target_kept {din : Dinode} {k : ℕ} {r : ℕ × Dinode × Tool}
    (hok : m.target din k = .ok r) : Kept m r.2.2 := by
  rw [target] at hok
  split_ifs at hok
  · cases hok
    exact mapAddr_kept m din _
  · obtain ⟨e, he, hok⟩ := bind_eq_ok.1 hok
    cases hok
    obtain ⟨buf, -, he⟩ := bind_eq_ok.1 he
    have hm := mapAddr_kept m din Dinode.indirect
    split_ifs at he
    · cases he
      exact hm
    · cases he
      exact hm

theorem appendLoop_kept (fuel : ℕ) {din : Dinode} {off p : ℕ} {r : Tool × Dinode × ℕ}
    (hok : appendLoop data fuel m din off p = .ok r) : Kept m r.1 := by
  induction fuel generalizing m din off p with
  | zero =>
    cases hok
    exact Kept.refl m
  | succ fuel ih =>
    rw [appendLoop] at hok
    split_ifs at hok
    · obtain ⟨⟨b, din', m₁⟩, htarget, hok⟩ := bind_eq_ok.1 hok
      obtain ⟨buf, -, hok⟩ := bind_eq_ok.1 hok
      have hwrite : Kept m₁ (m₁.writeSector b (buf.splice (off - off / BSIZE * BSIZE)
          (min (data.length - p) ((off / BSIZE + 1) * BSIZE - off)) fun i =>
          data.getD (p + i) 0)) := ⟨rfl, rfl, rfl, rfl⟩
      exact ((target_kept htarget).trans hwrite).trans (ih hok)
    · cases hok
      exact Kept.refl m

theorem writeInode_wrote {d : Dinode} (hok : m.writeInode i d = .ok m') :
    m'.freeInode = m.freeInode ∧ m'.wrote = m.wrote ++ [i] ∧ m'.placed = m.placed ∧
      m'.sb = m.sb := by
  obtain ⟨buf, -, hok⟩ := bind_eq_ok.1 hok
  cases hok
  exact ⟨rfl, rfl, rfl, rfl⟩

theorem iappend_wrote (hok : m.iappend i data = .ok m') :
    m'.freeInode = m.freeInode ∧ m'.wrote = m.wrote ++ [i] ∧ m'.placed = m.placed ∧
      m'.sb = m.sb := by
  obtain ⟨din, -, hok⟩ := bind_eq_ok.1 hok
  obtain ⟨⟨m₁, din', off⟩, hloop, hwrite⟩ := bind_eq_ok.1 hok
  obtain ⟨h1, h2, h3, h4⟩ := appendLoop_kept _ hloop
  obtain ⟨w1, w2, w3, w4⟩ := writeInode_wrote hwrite
  dsimp only at h1 h2 h3 h4
  rw [h1] at w1
  rw [h2] at w2
  rw [h3] at w3
  rw [h4] at w4
  exact ⟨w1, w2, w3, w4⟩

theorem ialloc_wrote {r : ℕ × Tool} (hok : m.ialloc t = .ok r) :
    r.1 = m.freeInode ∧ r.2.freeInode = m.freeInode + 1 ∧ r.2.wrote = m.wrote ++ [m.freeInode] ∧
      r.2.placed = m.placed ∧ r.2.sb = m.sb := by
  obtain ⟨m', hw, hok⟩ := bind_eq_ok.1 hok
  cases hok
  exact ⟨rfl, writeInode_wrote hw⟩

/-! ## The run of `main` -/

theorem Shows.lt_ninodes (h : m.Shows m.vol) {j : ℕ} (hj : j < 200) : j < (m.vol).sb.ninodes := by
  rw [h.sb]
  exact hj

/-- The entries of the root directory for files with these names. -/
def entries (names : List (List UInt8)) : List Dirent :=
  entry ROOTINO [46] :: entry ROOTINO [46, 46] ::
    names.mapIdx fun j name => entry (j + 2) (displayName name)

/-- The bytes of a list of entries. -/
def dirBytes (es : List Dirent) : List UInt8 := es.flatMap asBytes

theorem entries_append (names : List (List UInt8)) (name : List UInt8) :
    entries (names ++ [name]) = entries names ++ [entry (names.length + 2) (displayName name)] := by
  simp [entries, mapIdx_append]

theorem dirBytes_append (es : List Dirent) (de : Dirent) :
    dirBytes (es ++ [de]) = dirBytes es ++ asBytes de := by
  simp [dirBytes]

variable {host : List UInt8 → Option (List UInt8)} {files : List (List UInt8)}

/-- What the image holds once `files` are added. -/
structure Built (host : List UInt8 → Option (List UInt8)) (files : List (List UInt8)) (m : Tool) :
    Prop where
  /-- The volume is consistent and every allocated block listed. -/
  shows : m.Shows m.vol
  /-- The numbers handed out. -/
  freeInode : m.freeInode = files.length + 2
  /-- The root directory names the files. -/
  root : Holds m.vol ROOTINO T_DIR (dirBytes (entries files))
  /-- The files are there. -/
  file : ∀ j name, files[j]? = some name → ∃ data, host name = some data ∧
    Holds m.vol (j + 2) T_FILE data
  /-- The other inodes are free. -/
  unused : ∀ j, j = 0 ∨ files.length + 2 ≤ j → j < 200 → (m.vol).dinode j = Dinode.zero

theorem withRoot_built (hok : withRoot = .ok m) : Built host [] m := by
  obtain ⟨⟨root, m₁⟩, halloc, hok⟩ := bind_eq_ok.1 hok
  have hfi : start.freeInode = 1 := by rw [start_eq]; rfl
  have hold : start.freeInode < 200 → ((start.vol).dinode start.freeInode).itype = 0 := by
    intro hlt
    rw [dinode_start (by omega)]
    rfl
  obtain ⟨h1, hsh₁, hst₁⟩ := ialloc_stored shows_start (by rw [hfi]; omega) hold halloc
  obtain ⟨-, h2, -, -, -⟩ := ialloc_wrote halloc
  dsimp only at h1 hsh₁ hst₁ h2
  rw [hfi] at h1 hst₁ h2
  subst h1
  obtain ⟨m₂, hdot, hdots⟩ := bind_eq_ok.1 hok
  have hr₁ := Holds.stored hst₁
  obtain ⟨hsh₂, ha₂⟩ := addEntry_appended hsh₁ (by decide) (by rw [hr₁.itype]; decide) hdot
  have hr₂ := hr₁.appended ha₂
  obtain ⟨hsh₃, ha₃⟩ := addEntry_appended hsh₂ (by decide) (by rw [hr₂.itype]; decide) hdots
  have hbytes : dirBytes (entries []) =
      [] ++ asBytes (entry 1 [46]) ++ asBytes (entry 1 [46, 46]) := by
    simp [dirBytes, entries]
  refine ⟨hsh₃, ?_, hbytes ▸ hr₂.appended ha₃, fun j name hj => by simp at hj, fun j hj hj' => ?_⟩
  · rw [(iappend_wrote hdots).1]
    change m₂.freeInode = _
    rw [(iappend_wrote hdot).1]
    exact h2
  · change j = 0 ∨ 2 ≤ j at hj
    rw [ha₃.dinode j (hsh₂.lt_ninodes hj') (by omega), ha₂.dinode j (hsh₁.lt_ninodes hj')
      (by omega), hst₁.dinode j (by omega), dinode_start (by omega)]

/-- The three steps of a file that is added. -/
theorem addFile_ok {root : ℕ} {name : List UInt8} (hok : addFile host root m name = .ok m') :
    ∃ data inum m₁ m₂, host name = some data ∧ m.ialloc T_FILE = .ok (inum, m₁) ∧
      m₁.addEntry root inum (displayName name) = .ok m₂ ∧ m₂.iappend inum data = .ok m' := by
  rw [addFile] at hok
  cases hhost : host name with
  | none =>
    rw [hhost] at hok
    cases hok
  | some data =>
    rw [hhost] at hok
    obtain ⟨⟨inum, m₁⟩, halloc, hok⟩ := bind_eq_ok.1 hok
    obtain ⟨m₂, hentry, happend⟩ := bind_eq_ok.1 hok
    exact ⟨data, inum, m₁, m₂, rfl, halloc, hentry, happend⟩

theorem addFile_built (h : Built host files m) {name : List UInt8} (hlen : files.length < 198)
    (hok : addFile host ROOTINO m name = .ok m') : Built host (files ++ [name]) m' := by
  obtain ⟨data, inum, m₁, m₂, hhost, halloc, hentry, happend⟩ := addFile_ok hok
  have hfi := h.freeInode
  obtain ⟨h1, hsh₁, hst₁⟩ := ialloc_stored h.shows (by omega)
    (fun hlt => by rw [h.unused _ (Or.inr hfi.ge) hlt]; rfl) halloc
  obtain ⟨-, h2, -, -, -⟩ := ialloc_wrote halloc
  dsimp only at h1 hsh₁ hst₁ h2
  rw [hfi] at h1 hst₁ h2
  subst h1
  have hroot₁ := h.root.stored_of_ne hst₁ (show 1 ≠ files.length + 2 by omega)
  have hnew₁ := Holds.stored hst₁
  obtain ⟨hsh₂, ha₂⟩ := addEntry_appended hsh₁ (by decide) (by rw [hroot₁.itype]; decide) hentry
  have hroot₂ := hroot₁.appended ha₂
  have hnew₂ := hnew₁.appended_of_ne ha₂ (show files.length + 2 ≠ 1 by omega)
    (hsh₁.lt_ninodes (by omega))
  obtain ⟨hsh₃, ha₃⟩ := iappend_appended hsh₂ (by omega) (by rw [hnew₂.itype]; decide) happend
  have hother :
      ∀ j t c, j ≠ 1 → j ≠ files.length + 2 → j < 200 → Holds m.vol j t c → Holds m'.vol j t c := by
    intro j t c hj1 hj2 hj3 hc
    exact ((hc.stored_of_ne hst₁ hj2).appended_of_ne ha₂ hj1 (hsh₁.lt_ninodes hj3)).appended_of_ne
      ha₃ hj2 (hsh₂.lt_ninodes hj3)
  refine ⟨hsh₃, ?_, ?_, fun j nm hj => ?_, fun j hj hj' => ?_⟩
  · rw [(iappend_wrote happend).1, (iappend_wrote hentry).1, length_append]
    exact h2
  · rw [entries_append, dirBytes_append]
    exact hroot₂.appended_of_ne ha₃ (show 1 ≠ files.length + 2 by omega)
      (hsh₂.lt_ninodes (by decide))
  · rcases Nat.lt_or_ge j files.length with hlt | hge
    · rw [getElem?_append_left hlt] at hj
      obtain ⟨c, hc1, hc2⟩ := h.file j nm hj
      exact ⟨c, hc1, hother _ _ _ (by omega) (by omega) (by omega) hc2⟩
    · have hjeq : j = files.length := by
        have hlt := (List.getElem?_eq_some_iff.1 hj).1
        rw [length_append, length_singleton] at hlt
        omega
      subst hjeq
      rw [getElem?_concat_length] at hj
      cases hj
      exact ⟨data, hhost, hnew₂.appended ha₃⟩
  · rw [length_append, length_singleton] at hj
    rw [ha₃.dinode j (hsh₂.lt_ninodes hj') (by omega),
      ha₂.dinode j (hsh₁.lt_ninodes hj') (show j ≠ 1 by omega), hst₁.dinode j (by omega),
      h.unused j (by omega) hj']

theorem foldlM_built (hlen : files.length ≤ 198) {m₀ : Tool} (h : Built host [] m₀)
    (hok : files.foldlM (addFile host ROOTINO) m₀ = .ok m) : Built host files m := by
  refine foldlM_ok (I := fun done m => done.length ≤ 198 → Built host done m) (fun _ => h) ?_ hok
    hlen
  intro done name x x' hx hstep hle
  rw [length_append, length_singleton] at hle
  exact addFile_built (hx (by omega)) (by omega) hstep

/-- The kernel's view of an image: nothing is in memory but the superblock. -/
def mount (m : Tool) : Vol Unit :=
  { m.vol with blk := m.sector, sb := Superblock.ofBlock (m.sector 1) }

/-- The free map written last is the one the unfinished image was read with. -/
theorem mount_finish (h : m.Shows m.vol) (hok : m.finish = .ok m') : mount m' = m.vol := by
  rw [finish] at hok
  split_ifs at hok
  cases hok
  have hblk : (m.writeSector m.sb.bmapstart (bitmap m.freeBlock)).sector = m.shown := by
    funext x
    change update m.sector m.sb.bmapstart (bitmap m.freeBlock) x = m.shown x
    rw [shown]
    by_cases hx : x = m.sb.bmapstart
    · rw [hx, update_self, if_pos rfl]
    · rw [update_of_ne hx, if_neg hx]
  have hsup : Superblock.ofBlock (m.shown 1) = m.sb := h.sound.super
  rw [mount, hblk, hsup]
  rfl

/-- **What a successful run leaves behind.** -/
theorem main_built (hlen : files.length ≤ 198) (hok : main host files = .ok m') :
    ∃ m, Built host files m ∧ mount m' = m.vol := by
  obtain ⟨m₀, hroot, hok⟩ := bind_eq_ok.1 hok
  obtain ⟨m, hfold, hfinish⟩ := bind_eq_ok.1 hok
  have hb := foldlM_built hlen (withRoot_built hroot) hfold
  exact ⟨m, hb, mount_finish hb.shows hfinish⟩

/-! ## Files that fit -/

/-- Blocks that suffice to append `n` bytes. -/
def blocksFor (n : ℕ) : ℕ := n / BSIZE + 3

theorem newBlocks_le (s : Vol Unit) (i off n : ℕ) : s.newBlocks i (span off n) ≤ blocksFor n := by
  have hlen : (span off n).length ≤ n / BSIZE + 2 := by
    rw [span]
    split_ifs
    · exact Nat.zero_le _
    · rw [length_range']
      change (off + n - 1) / 512 - off / 512 + 1 ≤ n / 512 + 2
      omega
  have hcount := countP_le_length (p := fun k => decide (s.blockAt i k = 0)) (l := span off n)
  rw [newBlocks, blocksFor]
  split_ifs <;> omega

theorem ialloc_ok (h : m.Plain) (hi : m.freeInode < 208) (t : UInt16) : ∃ r, m.ialloc t = .ok r :=
  ⟨_, bind_eq_ok.2 ⟨_, Plain.writeInode_ok (m := { m with freeInode := m.freeInode + 1 })
    ⟨h.nsec, h.sb, h.le, h.le_size, h.fresh⟩ hi _, rfl⟩⟩

theorem iappend_fits (h : m.Shows m.vol) {c : List UInt8} (hi : i < 200) (ht : t ≠ 0)
    (hc : Holds m.vol i t c) (hend : c.length + data.length ≤ MAXFILE * BSIZE)
    (hfree : blocksFor data.length ≤ (m.vol).free.length) :
    ∃ m', m.iappend i data = .ok m' ∧
      (m.vol).free.length ≤ (m'.vol).free.length + blocksFor data.length := by
  have hle := newBlocks_le m.vol i ((m.vol).dinode i).size.toNat data.length
  have htype : ((m.vol).dinode i).itype ≠ 0 := by rw [hc.itype]; exact ht
  obtain ⟨m', hok⟩ := iappend_ok h hi htype (hc.size.symm ▸ hend) (le_trans hle hfree)
  refine ⟨m', hok, ?_⟩
  obtain ⟨-, ha⟩ := iappend_appended h hi htype hok
  rw [ha.free, length_drop]
  omega

theorem length_dirBytes (es : List Dirent) : (dirBytes es).length = 16 * es.length := by
  induction es with
  | nil => rfl
  | cons de es ih =>
    rw [dirBytes] at ih
    rw [dirBytes, flatMap_cons, length_append, length_asBytes, ih, length_cons]
    omega

theorem length_entries (names : List (List UInt8)) : (entries names).length = names.length + 2 := by
  simp [entries]

/-- Blocks that suffice for one file and its entry. -/
def blocksForFile (data : List UInt8) : ℕ := blocksFor Dirent.size + blocksFor data.length

/-- An inode and an entry for one more file, as far as the inode area goes. -/
theorem named_fits (h : Built host files m) (hlen : files.length ≤ 198) (name : List UInt8)
    (hfree : blocksFor Dirent.size ≤ (m.vol).free.length) :
    ∃ m₁ m₂, m.ialloc T_FILE = .ok (files.length + 2, m₁) ∧
      m₁.addEntry ROOTINO (files.length + 2) (displayName name) = .ok m₂ ∧ m₁.Shows m₁.vol ∧
      Holds m₁.vol (files.length + 2) T_FILE [] ∧ m₂.Shows m₂.vol ∧
      Appended ROOTINO (asBytes (entry (files.length + 2) (displayName name))) m₁.vol m₂.vol ∧
      (m.vol).free.length ≤ (m₂.vol).free.length + blocksFor Dirent.size := by
  have hmax : MAXFILE * BSIZE = 71680 := rfl
  have hroot := length_dirBytes (entries files)
  rw [length_entries] at hroot
  have hfi := h.freeInode
  obtain ⟨⟨inum, m₁⟩, halloc⟩ := ialloc_ok h.shows.plain (by omega) T_FILE
  obtain ⟨h1, hsh₁, hst₁⟩ := ialloc_stored h.shows (by omega)
    (fun hlt => by rw [h.unused _ (Or.inr hfi.ge) hlt]; rfl) halloc
  dsimp only at h1 hsh₁ hst₁
  rw [hfi] at h1 hst₁
  subst h1
  have hfree₁ := hst₁.free
  have hroot₁ := h.root.stored_of_ne hst₁ (show 1 ≠ files.length + 2 by omega)
  rw [show Dirent.size = 16 from rfl] at hfree ⊢
  obtain ⟨m₂, hentry, hle₂⟩ := @iappend_fits
    { m₁ with placed := m₁.placed ++ [(files.length + 2) % 65536] }
    (asBytes (entry (files.length + 2) (displayName name))) _ _ (hsh₁.place _) _
    (show 1 < 200 by decide) (by decide) hroot₁ (by rw [length_asBytes, hroot]; omega)
    (by
      change blocksFor 16 ≤ (m₁.vol).free.length
      rw [hfree₁]
      exact hfree)
  change (m₁.vol).free.length ≤ (m₂.vol).free.length + blocksFor 16 at hle₂
  obtain ⟨hsh₂, ha₂⟩ := addEntry_appended hsh₁ (show 1 < 200 by decide)
    (by rw [hroot₁.itype]; decide) hentry
  exact ⟨m₁, m₂, halloc, hentry, hsh₁, Holds.stored hst₁, hsh₂, ha₂, hfree₁ ▸ hle₂⟩

theorem addFile_fits (h : Built host files m) {name : List UInt8} (hlen : files.length < 198)
    (hhost : host name = some data) (hdata : data.length ≤ MAXFILE * BSIZE)
    (hfree : blocksForFile data ≤ (m.vol).free.length) :
    ∃ m', addFile host ROOTINO m name = .ok m' ∧
      (m.vol).free.length ≤ (m'.vol).free.length + blocksForFile data := by
  rw [blocksForFile] at hfree ⊢
  obtain ⟨m₁, m₂, halloc, hentry, hsh₁, hnew₁, hsh₂, ha₂, hle₂⟩ :=
    named_fits h hlen.le name (by omega)
  have hnew₂ := hnew₁.appended_of_ne ha₂ (show files.length + 2 ≠ 1 by omega)
    (hsh₁.lt_ninodes (by omega))
  obtain ⟨m₃, happend, hle₃⟩ := iappend_fits hsh₂ (by omega) (by decide) hnew₂
    (by rw [length_nil]; omega) (show blocksFor data.length ≤ _ by omega)
  refine ⟨m₃, ?_, by omega⟩
  rw [addFile, hhost]
  exact bind_eq_ok.2 ⟨_, halloc, bind_eq_ok.2 ⟨m₂, hentry, happend⟩⟩

theorem withRoot_fits : ∃ m, withRoot = .ok m ∧ 1935 ≤ (m.vol).free.length := by
  have hfi : start.freeInode = 1 := by rw [start_eq]; rfl
  have hold : start.freeInode < 200 → ((start.vol).dinode start.freeInode).itype = 0 := by
    intro hlt
    rw [dinode_start (by omega)]
    rfl
  have hfree : (start.vol).free.length = 1941 := by
    rw [shows_start.free, length_range', show start.freeBlock = 59 by rw [start_eq]; rfl]
    decide
  obtain ⟨⟨root, m₁⟩, halloc⟩ := ialloc_ok plain_start (by omega) T_DIR
  obtain ⟨h1, hsh₁, hst₁⟩ := ialloc_stored shows_start (by omega) hold halloc
  dsimp only at h1 hsh₁ hst₁
  rw [hfi] at h1 hst₁
  subst h1
  have hfree₁ := hst₁.free
  have hr₁ := Holds.stored hst₁
  have h16 : blocksFor 16 = 3 := by decide
  obtain ⟨m₂, hdot, hle₂⟩ := @iappend_fits { m₁ with placed := m₁.placed ++ [1 % 65536] }
    (asBytes (entry 1 [46])) _ _ (hsh₁.place _) _ (by decide) (by decide) hr₁ (by simp; decide)
    (by
      change blocksFor 16 ≤ (m₁.vol).free.length
      rw [hfree₁]
      omega)
  change (m₁.vol).free.length ≤ (m₂.vol).free.length + blocksFor 16 at hle₂
  obtain ⟨hsh₂, ha₂⟩ := addEntry_appended hsh₁ (by decide) (by rw [hr₁.itype]; decide) hdot
  have hr₂ := hr₁.appended ha₂
  obtain ⟨m₃, hdots, hle₃⟩ := @iappend_fits { m₂ with placed := m₂.placed ++ [1 % 65536] }
    (asBytes (entry 1 [46, 46])) _ _ (hsh₂.place _) _ (by decide) (by decide) hr₂
    (by simp; decide)
    (by
      change blocksFor 16 ≤ (m₂.vol).free.length
      rw [hfree₁] at hle₂
      omega)
  change (m₂.vol).free.length ≤ (m₃.vol).free.length + blocksFor 16 at hle₃
  refine ⟨m₃, bind_eq_ok.2 ⟨(1, m₁), halloc, bind_eq_ok.2 ⟨m₂, hdot, hdots⟩⟩, ?_⟩
  rw [hfree₁] at hle₂
  omega

/-- The files can be opened and no one of them is too large. -/
def Readable (host : List UInt8 → Option (List UInt8)) (files : List (List UInt8)) : Prop :=
  ∀ name ∈ files, ∃ data, host name = some data ∧ data.length ≤ MAXFILE * BSIZE

/-- Blocks that suffice for the files. -/
def blocksForFiles (host : List UInt8 → Option (List UInt8)) (files : List (List UInt8)) : ℕ :=
  (files.map fun name => blocksForFile ((host name).getD [])).sum

theorem foldlM_fits (hlen : files.length ≤ 198) (hread : Readable host files) {m₀ : Tool} {n : ℕ}
    (h : Built host [] m₀) (hfree : blocksForFiles host files + n ≤ (m₀.vol).free.length) :
    ∃ m, files.foldlM (addFile host ROOTINO) m₀ = .ok m ∧ Built host files m ∧
      n ≤ (m.vol).free.length := by
  obtain ⟨m, hok, -, -, -, hn⟩ := foldlM_ok_of (f := addFile host ROOTINO)
    (I := fun rest m => ∃ done, done ++ rest = files ∧ Built host done m ∧
      blocksForFiles host rest + n ≤ (m.vol).free.length) (l := files) (a := m₀)
    ⟨[], nil_append _, h, hfree⟩ (by
      rintro name rest x ⟨done, hdone, hb, hle⟩
      obtain ⟨data, hhost, hdata⟩ := hread name (hdone ▸ by simp)
      have hlt : done.length < 198 := by
        have := congrArg List.length hdone
        rw [length_append, length_cons] at this
        omega
      rw [blocksForFiles, map_cons, sum_cons, hhost, Option.getD_some] at hle
      obtain ⟨x', hok, hle'⟩ := addFile_fits hb hlt hhost hdata (by omega)
      refine ⟨x', hok, done ++ [name], by rw [← hdone]; simp, addFile_built hb hlt hok, ?_⟩
      rw [blocksForFiles]
      omega)
  exact ⟨m, hok, foldlM_built hlen h hok, by omega⟩

theorem finish_ok (h : m.Plain) : ∃ m', m.finish = .ok m' := by
  have hle : m.freeBlock ≤ 2000 := h.le_size
  exact ⟨_, if_neg (show ¬512 * 8 < m.freeBlock by omega)⟩

/-- **A run over files that fit succeeds.** -/
theorem main_ok (hlen : files.length ≤ 198) (hread : Readable host files)
    (hfree : blocksForFiles host files ≤ 1935) : ∃ m', main host files = .ok m' := by
  obtain ⟨m₀, hroot, hle⟩ := withRoot_fits
  obtain ⟨m, hok, hb, -⟩ := foldlM_fits (n := 0) hlen hread (withRoot_built hroot)
    (le_trans hfree hle)
  obtain ⟨m', hfinish⟩ := finish_ok hb.shows.plain
  exact ⟨m', bind_eq_ok.2 ⟨m₀, hroot, bind_eq_ok.2 ⟨m, hok, hfinish⟩⟩⟩

end Tool

end Xv6.Mkfs
