import Xv6.Mkfs.Build

/-!
# `mkfs` and the kernel agree

The image of a successful run, as the kernel finds it.

* `image_readable` — the kernel reads back every file and the root directory.
* `image_free_map` — the free map marks the metadata and the blocks in use, and
  nothing else, so that `balloc` hands out neither.
* `image_regions_iff` — inodes and directory entries stay within the inode area
  exactly if there are at most 198 files.
-/

namespace Xv6.Mkfs

open Lib Prog Fs Fs.Vol List

/-! ## Reading a file -/

/-- `iget`, `ilock` and `readi`, with the inode as `ilock` leaves it. -/
def readFile (D : Devsw Unit) (inum off n : ℕ) : Prog (Vol Unit) (Dinode × ℤ × List UInt8) := do
  let ip ← iget inum
  ilock () ip
  let d ← .look fun s => (s.inode ip).d
  let r ← readi D () ip off n
  pure (d, r)

variable {s : Vol Unit} {i : ℕ} {t : UInt16} {c : List UInt8}

theorem Holds.content (h : Holds s i t c) : s.content i = c := by
  apply ext_getElem
  · rw [length_content, h.size]
  · intro o h1 h2
    rw [getElem_content, h.bytes o h2, getD_eq_getElem _ _ h2]

/-- **The kernel reads what a file holds.** -/
theorem wp_readFile (D : Devsw Unit) (hs : Sound s) (hidle : ∀ x, s.held x = none)
    (hnone : ∀ jp, (s.inode jp).ref = 0 ∧ (s.inode jp).lock = none) (hi : i < s.sb.ninodes)
    (h : Holds s i t c) (ht : t ≠ 0) (hdev : t ≠ T_DEV) (off n : ℕ) :
    (readFile D i off n).wp noPanic
      (fun r _ => r.1 = s.dinode i ∧ r.2 = readResult c off n) s := by
  simp only [readFile, bind_eq, wp_bind]
  refine wp_iget i (Or.inr (Or.inl ⟨0, (hnone 0).1⟩)) fun ip s₁ hg => ?_
  obtain ⟨hs₁, hrefs₁⟩ := hg.sound hs hi
  obtain ⟨hblk, hsb, hheld, -, -, -⟩ := hg.frame
  have hd₁ : s₁.dinode (s₁.num ip) = s.dinode i := by rw [hg.num, hg.dinode hs.slots]
  have hlock : (s₁.inode ip).lock = none := by rw [hg.lock]; exact (hnone ip).2
  refine wp_ilock hs₁ hg.ref hlock (by rw [hheld]; exact hidle _)
    (Or.inl (by rw [hd₁, h.itype]; exact ht)) fun _ => ?_
  obtain ⟨hs₂, hrefs₂, hl⟩ := hs₁.locked hg.ref ()
  have hin : ((s₁.locked () ip).inode ip).d = s.dinode i := by rw [inode_locked, ← hd₁]
  have hnum : (s₁.locked () ip).num ip = i := by
    rw [num, inode_locked]
    exact hg.num
  have hd₂ : (s₁.locked () ip).dinode i = s.dinode i := by
    have := hs₂.dinode_num hl
    rwa [hnum, hin] at this
  have hholes : (s₁.locked () ip).NoHoles i := by
    intro k hk
    rw [hd₂] at hk
    rw [blockAt, hrefs₂, hrefs₁]
    exact h.holes k hk
  have hdev' : ((s₁.locked () ip).inode ip).d.isDev = false := by
    rw [hin, Dinode.isDev, h.itype]
    exact beq_eq_false_iff_ne.2 hdev
  have hidle' : ∀ x, (s₁.locked () ip).held x = none := fun x => by
    change s₁.held x = none
    rw [hheld]
    exact hidle x
  have hrun := @run_readi _ _ () _ D hs₂ hl (by rw [hin, h.itype]; exact ht) hdev' hidle'
    (by rw [hnum]; exact hholes) off n
  rw [hnum, content_congr (show (s₁.locked () ip).blk = s.blk from hblk)
    (show (s₁.locked () ip).sb = s.sb from hsb) hd₂, h.content] at hrun
  rw [wp_look]
  exact (wp_noPanic_iff _).2 ⟨_, _, hrun, hin, rfl⟩

namespace Tool

variable {m : Tool} {host : List UInt8 → Option (List UInt8)} {files : List (List UInt8)}

/-- No file of the image has holes. -/
theorem Built.allMapped (h : Built host files m) : (m.vol).AllMapped := by
  intro j hj _
  have hlt : j < 200 := by
    have := hj.1
    rwa [h.shows.sb] at this
  by_cases hunused : j = 0 ∨ files.length + 2 ≤ j
  · exact absurd (by rw [h.unused j hunused hlt]; rfl) hj.2
  · by_cases hroot : j = 1
    · subst hroot
      exact h.root.holes
    · obtain ⟨data, -, hc⟩ := h.file (j - 2) _ (getElem?_eq_getElem (by omega))
      rw [show j - 2 + 2 = j by omega] at hc
      exact hc.holes

/-- A file of the image, read by the kernel. -/
theorem Built.run_readFile (h : Built host files m) (D : Devsw Unit) (hi : i < 200)
    (hc : Holds m.vol i t c) (ht : t ≠ 0) (hdev : t ≠ T_DEV) (off n : ℕ) :
    ∃ d s', (readFile D i off n).run m.vol = .done (d, readResult c off n) s' ∧ d.itype = t ∧
      d.nlink = 1 ∧ d.size.toNat = c.length := by
  obtain ⟨⟨d, r⟩, s', hrun, h1, h2⟩ := (wp_noPanic_iff _).1 (wp_readFile D h.shows.sound
    (fun _ => rfl) (fun _ => ⟨rfl, rfl⟩) (h.shows.lt_ninodes hi) hc ht hdev off n)
  dsimp only at h1 h2
  subst h1 h2
  exact ⟨_, s', hrun, hc.itype, hc.nlink, hc.size⟩

/-- **`mkfs` writes what the kernel reads.**  On the image of a run that succeeded on
at most 198 files, the kernel finds every file with its type, link count, size and
bytes, and in the root directory `.`, `..` and an entry for each file, in order. -/
theorem image_readable (D : Devsw Unit) (hlen : files.length ≤ 198)
    (hok : main host files = .ok m) :
    (∀ j name, files[j]? = some name → ∃ data, host name = some data ∧
      ∀ off n, ∃ d s', (readFile D (j + 2) off n).run (mount m) =
        .done (d, readResult data off n) s' ∧
        d.itype = T_FILE ∧ d.nlink = 1 ∧ d.size.toNat = data.length) ∧
      ∀ off n, ∃ d s', (readFile D ROOTINO off n).run (mount m) =
        .done (d, readResult (dirBytes (entry 1 [46] :: entry 1 [46, 46] ::
          files.mapIdx fun j name => entry (j + 2) (displayName name))) off n) s' := by
  obtain ⟨m₀, hb, hmount⟩ := main_built hlen hok
  rw [hmount]
  constructor
  · intro j name hj
    obtain ⟨data, hhost, hc⟩ := hb.file j name hj
    have hlt : j + 2 < 200 := by
      have := (List.getElem?_eq_some_iff.1 hj).1
      omega
    exact ⟨data, hhost, fun off n =>
      hb.run_readFile D hlt hc (by decide) (by decide) off n⟩
  · intro off n
    obtain ⟨d, s', hrun, -⟩ :=
      hb.run_readFile D (by decide) hb.root (by decide) (by decide) off n
    exact ⟨d, s', hrun⟩

/-- A host with one file, `_a`, that holds `hi`. -/
def oneFile : List UInt8 → Option (List UInt8) := fun name =>
  if name = [95, 97] then some [104, 105] else none

theorem main_oneFile : ∃ m, main oneFile [[95, 97]] = .ok m := by
  refine main_ok (by decide) ?_ (by decide)
  intro name hname
  rw [mem_singleton] at hname
  subst hname
  exact ⟨[104, 105], rfl, by decide⟩

/-- A `DEVSW` without devices. -/
def noDev : Devsw Unit := ⟨fun _ => none, fun _ => none⟩

theorem image_readable_oneFile : ∃ m d s', main oneFile [[95, 97]] = .ok m ∧
    (readFile noDev 2 1 5).run (mount m) = .done (d, 1, [105]) s' ∧ d.itype = T_FILE := by
  obtain ⟨m, hok⟩ := main_oneFile
  obtain ⟨data, hdata, hread⟩ := (image_readable noDev (by decide) hok).1 0 [95, 97] rfl
  cases hdata
  obtain ⟨d, s', hrun, htype, -⟩ := hread 1 5
  exact ⟨m, d, s', hok, hrun, htype⟩

/-! ## The free map -/

/-- **`mkfs` establishes the kernel's free-space invariant.**  Every block listed by an
inode is listed once, is a data block of the volume and is marked; so are the metadata
blocks, and nothing else is.  Hence `balloc` on the fresh image, whatever the log
holds, returns a data block that nobody lists. -/
theorem image_free_map (hlen : files.length ≤ 198) (hok : main host files = .ok m) :
    (∀ k, (mount m).refs k ≠ 0 → nMeta ≤ (mount m).refs k ∧ (mount m).refs k < FSSIZE ∧
        (mount m).bit ((mount m).refs k) = true) ∧
      (∀ k k', (mount m).refs k ≠ 0 → (mount m).refs k = (mount m).refs k' → k = k') ∧
      (∀ b, b < nMeta → (mount m).bit b = true) ∧
      (∀ b, b < FSSIZE → (mount m).bit b = true → b < nMeta ∨ ∃ k, (mount m).refs k = b) ∧
      ∀ lg b s', (balloc ()).run { mount m with log := lg } = .done b s' →
        nMeta ≤ b ∧ b < FSSIZE ∧ ∀ k, (mount m).refs k ≠ b := by
  obtain ⟨m₀, hb, hmount⟩ := main_built hlen hok
  rw [hmount]
  have hs := hb.shows.sound
  have hsb := hb.shows.sb
  refine ⟨fun k h0 => ?_, fun k k' h0 he => hs.refs.inj k k' he h0, fun b hlt => ?_,
    fun b hlt hbit => ?_, fun lg b s' hrun => ?_⟩
  · obtain ⟨h1, h2, h3⟩ := hs.refs.good k h0
    rw [hsb] at h1 h2
    exact ⟨h1, h2, h3⟩
  · exact hs.meta_marked b (by rw [hsb]; exact hlt)
  · rw [hb.shows.bit hlt, decide_eq_true_iff] at hbit
    rcases Nat.lt_or_ge b nMeta with h | h
    · exact .inl h
    · exact .inr (hb.shows.covered b h hbit)
  · have hs' : Sound { m₀.vol with log := lg } :=
      ⟨hs.wf, hs.super, hs.meta_marked, hs.refs, hs.slots, hs.inums⟩
    have hmap : ∀ b rest, ({ m₀.vol with log := lg } : Vol Unit).free = b :: rest →
        bblock b (m₀.vol).sb ∈ ({58} : Finset ℕ) := fun b rest hfree => by
      have hlt : b < (m₀.vol).sb.size := (free_eq_cons hfree).1
      rw [hsb] at hlt ⊢
      rw [bblock_layout hlt]
      exact Finset.mem_singleton_self _
    have hwp : (balloc ()).wp anyPanic
        (fun b _ => b ∈ ({ m₀.vol with log := lg } : Vol Unit).free) { m₀.vol with log := lg } :=
      wp_balloc hs' (fun _ hx => absurd rfl hx) (Or.inr fun _ => trivial)
        (Or.inr fun _ => trivial) hmap fun _ _ hfree => hfree ▸ mem_cons_self
    have hmem := of_wp_of_run hwp hrun
    have hdata := hs'.free_data hmem
    have hlt := (mem_free.1 hmem).1
    change (m₀.vol).sb.dataStart ≤ b at hdata
    change b < (m₀.vol).sb.size at hlt
    rw [hsb] at hdata hlt
    exact ⟨hdata, hlt, hs'.free_unlisted hmem⟩

theorem image_free_map_oneFile :
    ∃ m, main oneFile [[95, 97]] = .ok m ∧ (∀ b, b < nMeta → (mount m).bit b = true) := by
  obtain ⟨m, hok⟩ := main_oneFile
  exact ⟨m, hok, (image_free_map (by decide) hok).2.2.1⟩

/-! ## The regions -/

/-- What a run that succeeds has done to the inode area after the files `done`. -/
structure Traced (done : List (List UInt8)) (m : Tool) : Prop where
  /-- The layout never changes. -/
  sb : m.sb = layout
  /-- One inode for the root and one for each file, from 1 on. -/
  freeInode : m.freeInode = done.length + 2
  /-- Only inodes handed out are written. -/
  wrote : ∀ i ∈ m.wrote, i < m.freeInode
  /-- Only inodes handed out are placed in the root directory. -/
  placed : ∀ i ∈ m.placed, i < m.freeInode
  /-- The first number outside the inode area is placed when it is reached. -/
  beyond : 198 < done.length → 200 ∈ m.placed

theorem addEntry_wrote {root inum : ℕ} {name : List UInt8} {m' : Tool}
    (hok : m.addEntry root inum name = .ok m') : m'.freeInode = m.freeInode ∧
      m'.wrote = m.wrote ++ [root] ∧ m'.placed = m.placed ++ [inum % 65536] ∧ m'.sb = m.sb :=
  iappend_wrote hok

theorem withRoot_traced (hok : withRoot = .ok m) : Traced [] m := by
  obtain ⟨⟨root, m₁⟩, halloc, hok⟩ := bind_eq_ok.1 hok
  obtain ⟨h1, hf₁, hw₁, hp₁, hs₁⟩ := ialloc_wrote halloc
  have hfi : start.freeInode = 1 := by rw [start_eq]; rfl
  dsimp only at h1 hf₁ hw₁ hp₁ hs₁ hok
  rw [hfi] at h1 hf₁ hw₁
  rw [h1, if_neg (by decide)] at hok
  obtain ⟨m₂, hdot, hdots⟩ := bind_eq_ok.1 hok
  obtain ⟨hf₂, hw₂, hp₂, hs₂⟩ := addEntry_wrote hdot
  obtain ⟨hf₃, hw₃, hp₃, hs₃⟩ := addEntry_wrote hdots
  have hwrote : m.wrote = [1, 1, 1] := by rw [hw₃, hw₂, hw₁, start_eq]; rfl
  have hplaced : m.placed = [1, 1] := by rw [hp₃, hp₂, hp₁, start_eq]; rfl
  have hfree : m.freeInode = 2 := by rw [hf₃, hf₂, hf₁]
  refine ⟨by rw [hs₃, hs₂, hs₁, start_eq]; rfl, hfree, ?_, ?_, fun h => by simp at h⟩
  · simp [hwrote, hfree]
  · simp [hplaced, hfree]

theorem Traced.addFile {done : List (List UInt8)} (h : Traced done m) {name : List UInt8}
    {m' : Tool} (hok : addFile host ROOTINO m name = .ok m') : Traced (done ++ [name]) m' := by
  obtain ⟨data, inum, m₁, m₂, -, halloc, hentry, happend⟩ := addFile_ok hok
  obtain ⟨h1, hf₁, hw₁, hp₁, hs₁⟩ := ialloc_wrote halloc
  dsimp only at h1 hf₁ hw₁ hp₁ hs₁
  obtain ⟨hf₂, hw₂, hp₂, hs₂⟩ := addEntry_wrote hentry
  obtain ⟨hf₃, hw₃, hp₃, hs₃⟩ := iappend_wrote happend
  have hfree := h.freeInode
  have hfree' : m'.freeInode = m.freeInode + 1 := by rw [hf₃, hf₂, hf₁]
  have hplaced : m'.placed = m.placed ++ [inum % 65536] := by rw [hp₃, hp₂, hp₁]
  refine ⟨by rw [hs₃, hs₂, hs₁, h.sb], by rw [hfree', hfree, length_append]; rfl,
    fun i hi => ?_, fun i hi => ?_, fun hlt => ?_⟩
  · rw [hw₃, hw₂, hw₁] at hi
    simp only [mem_append, mem_singleton] at hi
    have hroot : ROOTINO = 1 := rfl
    rcases hi with ((hi | hi) | hi) | hi
    · have := h.wrote i hi
      omega
    all_goals omega
  · rw [hplaced, mem_append, mem_singleton] at hi
    rcases hi with hi | hi
    · have := h.placed i hi
      omega
    · have := Nat.mod_le inum 65536
      omega
  · rw [length_append, length_singleton] at hlt
    rw [hplaced, mem_append, mem_singleton]
    by_cases hlast : done.length = 198
    · right
      omega
    · exact .inl (h.beyond (by omega))

theorem main_traced (hok : main host files = .ok m) : Traced files m := by
  obtain ⟨m₀, hroot, hok⟩ := bind_eq_ok.1 hok
  obtain ⟨m₁, hfold, hfinish⟩ := bind_eq_ok.1 hok
  have h := foldlM_ok (I := Traced) (withRoot_traced hroot)
    (fun _ _ _ _ hx hstep => hx.addFile hstep) hfold
  rw [finish] at hfinish
  split_ifs at hfinish
  cases hfinish
  exact ⟨h.sb, h.freeInode, h.wrote, h.placed, h.beyond⟩

/-- Every inode written lies in the inode area, every inode placed in the root
directory is one of the volume, and every block of a file lies beyond the free map. -/
def InRegions (m : Tool) : Prop :=
  (∀ i ∈ m.wrote, m.sb.inodestart ≤ m.iblock i ∧ m.iblock i < m.sb.bmapstart) ∧
    (∀ i ∈ m.placed, i < m.sb.ninodes) ∧
    ∀ k, (mount m).refs k ≠ 0 → m.sb.bmapstart < (mount m).refs k

/-- A run that succeeded kept its regions apart exactly if it was given at most 198
files: inode numbers are handed out from 1 without a bound, and the volume has 200. -/
theorem image_regions_iff (hok : main host files = .ok m) : InRegions m ↔ files.length ≤ 198 := by
  have ht := main_traced hok
  constructor
  · intro h
    by_contra hlen
    have hlt := h.2.1 200 (ht.beyond (by omega))
    rw [ht.sb] at hlt
    exact absurd hlt (by decide)
  · intro hlen
    have hfi := ht.freeInode
    obtain ⟨m₀, hb, hmount⟩ := main_built hlen hok
    refine ⟨fun i hi => ?_, fun i hi => ?_, fun k h0 => ?_⟩
    · have := ht.wrote i hi
      rw [iblock, ht.sb]
      change 32 ≤ i / 8 + 32 ∧ i / 8 + 32 < 58
      omega
    · have := ht.placed i hi
      rw [ht.sb]
      change i < 200
      omega
    · rw [hmount] at h0 ⊢
      have h1 := (hb.shows.sound.refs.good k h0).1
      rw [hb.shows.sb] at h1
      rw [ht.sb]
      exact h1

theorem image_regions_iff_oneFile :
    ∃ m, main oneFile [[95, 97]] = .ok m ∧ InRegions m := by
  obtain ⟨m, hok⟩ := main_oneFile
  exact ⟨m, hok, (image_regions_iff hok).2 (by decide)⟩

/-- Appending nothing rewrites the inode. -/
theorem iappend_nil (h : m.Plain) (hi : i < 208) :
    ∃ m', m.iappend i [] = .ok m' ∧ m'.freeBlock = m.freeBlock :=
  ⟨_, bind_eq_ok.2 ⟨_, h.readInode hi, h.writeInode_ok hi _⟩, rfl⟩

/-- `mkfs` given 199 empty files succeeds, and places inode 200 of a volume whose
inodes are those below 200. -/
theorem image_regions_overrun : ∃ m, main (fun _ => some []) (List.replicate 199 [97]) = .ok m ∧
    200 ∈ m.placed ∧ m.sb.ninodes = 200 := by
  obtain ⟨m₀, hroot, hfree⟩ := withRoot_fits
  have hread : Readable (fun _ => some []) (List.replicate 198 [97]) :=
    fun _ _ => ⟨[], rfl, Nat.zero_le _⟩
  obtain ⟨m₁, hfold, hb, hleft⟩ := foldlM_fits (n := 3)
    (by rw [length_replicate]) hread (withRoot_built hroot)
    (le_trans (by rw [blocksForFiles, map_replicate, sum_replicate]; decide) hfree)
  -- the last file: its inode lies in the padding of the last inode block
  obtain ⟨m₂, m₃, halloc, hentry, -, -, hsh, -, -⟩ := named_fits hb
    (by rw [length_replicate]) [97] hleft
  rw [length_replicate] at halloc hentry
  obtain ⟨m₄, happend, hfb⟩ := iappend_nil hsh.plain (show 200 < 208 by decide)
  have hadd : addFile (fun _ => some []) ROOTINO m₁ [97] = .ok m₄ :=
    bind_eq_ok.2 ⟨_, halloc, bind_eq_ok.2 ⟨m₃, hentry, happend⟩⟩
  have hle : m₄.freeBlock ≤ 2000 := hfb ▸ hsh.plain.le_size
  have hok : main (fun _ => some []) (List.replicate 199 [97]) =
      .ok (m₄.writeSector m₄.sb.bmapstart (bitmap m₄.freeBlock)) := by
    refine bind_eq_ok.2 ⟨m₀, hroot, bind_eq_ok.2 ⟨m₄, ?_, if_neg ?_⟩⟩
    · rw [replicate_succ', foldlM_append]
      exact bind_eq_ok.2 ⟨m₁, hfold, bind_eq_ok.2 ⟨m₄, hadd, rfl⟩⟩
    · change ¬512 * 8 < m₄.freeBlock
      omega
  have ht := main_traced hok
  exact ⟨_, hok, ht.beyond (by rw [length_replicate]; decide), by rw [ht.sb]; rfl⟩

end Tool

end Xv6.Mkfs
