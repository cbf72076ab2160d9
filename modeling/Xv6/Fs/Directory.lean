import Xv6.Fs.ByteArray

/-!
# Directories as maps from names to inodes

`dirlookup` compares a name with the stored ones over the length of the name it is
given, so it takes the first entry whose name *begins* with it.

* `lookupIn` — what the code looks for; `exactIn` — what a map would.
* `finds_iff`, `wp_dirlink` — the calls in terms of the list of entries.
* `dir_exact_iff` — when a directory behaves as a map for a name.
* `dir_prefix_found` — a directory that does not.
-/

namespace Xv6.Fs

open Lib Prog Mkfs.Tool List

/-! ## Names -/

/-- The name of an entry, up to its NUL. -/
def Dirent.storedName (de : Dirent) : List UInt8 := (List.ofFn de.name).takeWhile (· ≠ 0)

/-- An entry in use whose name begins with `q`. -/
def Dirent.Starts (q : List UInt8) (de : Dirent) : Prop := de.inum ≠ 0 ∧ q <+: de.storedName

/-- An entry in use with the name `q`. -/
def Dirent.Named (q : List UInt8) (de : Dirent) : Prop := de.inum ≠ 0 ∧ de.storedName = q

instance (q : List UInt8) : DecidablePred (Dirent.Starts q) := fun _ =>
  inferInstanceAs (Decidable (_ ∧ _))

instance (q : List UInt8) : DecidablePred (Dirent.Named q) := fun _ =>
  inferInstanceAs (Decidable (_ ∧ _))

theorem Dirent.Named.starts {q : List UInt8} {de : Dirent} (h : de.Named q) : de.Starts q :=
  ⟨h.1, h.2 ▸ prefix_refl _⟩

namespace Vol

theorem namecmpLoop_iff {q : List UInt8} (hq : ∀ c ∈ q, c ≠ 0) (t : List UInt8) :
    namecmpLoop q t = true ↔ q <+: t := by
  induction q generalizing t with
  | nil => simp [namecmpLoop]
  | cons c q ih =>
    have hc := hq c mem_cons_self
    have hq' : ∀ d ∈ q, d ≠ 0 := fun d hd => hq d (mem_cons_of_mem c hd)
    rw [namecmpLoop]
    cases t with
    | nil => simp [hc]
    | cons d t =>
      rw [cons_prefix_cons, headD_cons, List.tail_cons]
      by_cases h : c = d
      · rw [if_neg (by simp [h]), if_neg hc, ih hq']
        exact (and_iff_right h).symm
      · rw [if_pos h]
        simp [h]

/-- A name without NUL is a prefix of the array if it is one of the name in it. -/
theorem prefix_takeWhile {q : List UInt8} (hq : ∀ c ∈ q, c ≠ 0) (t : List UInt8) :
    q <+: t.takeWhile (· ≠ 0) ↔ q <+: t := by
  induction q generalizing t with
  | nil => simp
  | cons c q ih =>
    have hc := hq c mem_cons_self
    have hq' : ∀ d ∈ q, d ≠ 0 := fun d hd => hq d (mem_cons_of_mem c hd)
    cases t with
    | nil => simp
    | cons d t =>
      rw [takeWhile_cons]
      by_cases hd : d = 0
      · rw [if_neg (by simp [hd]), cons_prefix_cons]
        constructor
        · intro h
          exact absurd (prefix_nil.1 h) (cons_ne_nil c q)
        · rintro ⟨rfl, -⟩
          exact absurd hd hc
      · rw [if_pos (by simp [hd]), cons_prefix_cons, cons_prefix_cons, ih hq']

theorem nameLen_le (name : ℕ → UInt8) : nameLen name ≤ DIRSIZ := by
  have h := (List.takeWhile_prefix (l := List.range DIRSIZ) fun i => decide (name i ≠ 0)).length_le
  rwa [length_range] at h

theorem length_nameSlice (name : ℕ → UInt8) : (nameSlice name).length = nameLen name := by
  simp [nameSlice]

theorem name_ne_zero {name : ℕ → UInt8} {i : ℕ} (hi : i < nameLen name) : name i ≠ 0 := by
  have hp := List.takeWhile_prefix (l := List.range DIRSIZ) fun i => decide (name i ≠ 0)
  have hmem : i ∈ (List.range DIRSIZ).takeWhile fun i => decide (name i ≠ 0) := by
    rw [mem_iff_getElem]
    refine ⟨i, hi, ?_⟩
    rw [hp.getElem hi, getElem_range]
  simpa using mem_takeWhile_imp hmem

theorem nameSlice_ne_zero (name : ℕ → UInt8) : ∀ c ∈ nameSlice name, c ≠ 0 := by
  intro c hc
  rw [nameSlice, mem_map] at hc
  obtain ⟨i, hi, rfl⟩ := hc
  exact name_ne_zero (mem_range.1 hi)

/-- `namecmp` in `dirlookup` asks for a prefix. -/
theorem namecmp_iff (name : ℕ → UInt8) (de : Dirent) :
    namecmp (nameSlice name) (List.ofFn de.name) = true ↔ nameSlice name <+: de.storedName := by
  have hlen : (nameSlice name).length ≤ DIRSIZ := (length_nameSlice name).trans_le (nameLen_le name)
  rw [namecmp, take_of_length_le hlen, namecmpLoop_iff (nameSlice_ne_zero name),
    Dirent.storedName, prefix_takeWhile (nameSlice_ne_zero name)]

/-! ## Looking up and linking in a list of entries -/

/-- The entry `dirlookup` takes. -/
def lookupIn (es : List Dirent) (q : List UInt8) : Option Dirent := es.find? (Dirent.Starts q)

/-- The entry a map from names would give. -/
def exactIn (es : List Dirent) (q : List UInt8) : Option Dirent := es.find? (Dirent.Named q)

/-- The first free entry, or the end. -/
def freeSlot (es : List Dirent) : ℕ := es.findIdx fun de => decide (de.inum = 0)

/-- The entries once `de` is written over entry `j`. -/
def linked (es : List Dirent) (j : ℕ) (de : Dirent) : List Dirent :=
  es.take j ++ de :: es.drop (j + 1)

theorem freeSlot_le (es : List Dirent) : freeSlot es ≤ es.length := findIdx_le_length

/-- The free entry never is the one looked for. -/
theorem find_split {p : Dirent → Prop} [DecidablePred p] (hp : ∀ de, p de → de.inum ≠ 0)
    (es : List Dirent) : es.find? (fun de => decide (p de)) =
      ((es.take (freeSlot es)).find? fun de => decide (p de)).or
        ((es.drop (freeSlot es + 1)).find? fun de => decide (p de)) := by
  conv_lhs => rw [← take_append_drop (freeSlot es) es, find?_append]
  congr 1
  rcases Nat.lt_or_ge (freeSlot es) es.length with hlt | hge
  · have hfree : es[freeSlot es].inum = 0 := of_decide_eq_true
      (findIdx_getElem (p := fun de : Dirent => decide (de.inum = 0)) (w := hlt))
    rw [drop_eq_getElem_cons hlt, find?_cons_of_neg]
    simpa using fun h => hp _ h hfree
  · rw [drop_of_length_le hge, drop_of_length_le (by omega)]

theorem find_linked {p : Dirent → Prop} [DecidablePred p] (es : List Dirent) (j : ℕ) (de : Dirent) :
    (linked es j de).find? (fun de => decide (p de)) =
      ((es.take j).find? fun de => decide (p de)).or
        (if p de then some de else (es.drop (j + 1)).find? fun de => decide (p de)) := by
  rw [linked, find?_append]
  congr 1
  split_ifs with h
  · rw [find?_cons_of_pos (by simpa using h)]
  · rw [find?_cons_of_neg (by simpa using h)]

/-! ## Entries as bytes -/

theorem dirBytes_cons (de : Dirent) (es : List Dirent) :
    dirBytes (de :: es) = asBytes de ++ dirBytes es := rfl

theorem drop_dirBytes (es : List Dirent) (j : ℕ) :
    (dirBytes es).drop (16 * j) = dirBytes (es.drop j) := by
  induction j generalizing es with
  | zero => rfl
  | succ j ih =>
    cases es with
    | nil => simp [dirBytes]
    | cons de es =>
      rw [dirBytes_cons, Nat.mul_succ, Nat.add_comm, ← drop_drop,
        drop_left' (length_asBytes de), ih]
      rfl

theorem take_dirBytes (es : List Dirent) (j : ℕ) :
    (dirBytes es).take (16 * j) = dirBytes (es.take j) := by
  induction j generalizing es with
  | zero => rfl
  | succ j ih =>
    cases es with
    | nil => simp [dirBytes]
    | cons de es =>
      rw [dirBytes_cons, Nat.mul_succ, Nat.add_comm, take_add,
        take_left' (length_asBytes de), drop_left' (length_asBytes de), ih]
      rfl

/-- Writing an entry's bytes in its place. -/
theorem overwrite_dirBytes (es : List Dirent) (j : ℕ) (de : Dirent) :
    overwrite (dirBytes es) (16 * j) (asBytes de) = dirBytes (linked es j de) := by
  rw [overwrite, length_asBytes, take_dirBytes, ← Nat.mul_succ, drop_dirBytes]
  simp [linked, dirBytes]

theorem ofBytes_asBytes (de : Dirent) :
    Dirent.ofBytes (fun i => (asBytes de).getD i 0) = de := by
  rw [← Dirent.ofBytes_toBytes de]
  refine Dirent.ofBytes_congr fun i hi => ?_
  rw [Dirent.ofBytes_toBytes, getD_eq_getElem _ _ (by rw [length_asBytes]; exact hi)]
  simp [asBytes]

/-! ## The calls -/

variable {τ : Type} {s s' : Vol τ} {me : τ} {dp : Fin NINODE} {es : List Dirent} {D : Devsw τ}

/-- A locked directory with these entries, between calls. -/
structure Dir (s : Vol τ) (dp : Fin NINODE) (es : List Dirent) : Prop where
  /-- The volume is consistent. -/
  sound : Sound s
  /-- No buffer is held. -/
  idle : ∀ x, s.held x = none
  /-- Its inode is loaded. -/
  loaded : s.Loaded dp
  /-- It is a directory. -/
  itype : (s.inode dp).d.itype = T_DIR
  /-- It has no holes. -/
  holes : s.NoHoles (s.num dp)
  /-- These are its entries. -/
  content : s.content (s.num dp) = dirBytes es

namespace Dir

theorem size (h : Dir s dp es) : (s.inode dp).d.size.toNat = 16 * es.length := by
  rw [← h.sound.dinode_num h.loaded, ← length_content, h.content, length_dirBytes]

theorem length_le (h : Dir s dp es) : 16 * es.length ≤ 71680 := by
  have := h.holes.size_le
  rwa [h.sound.dinode_num h.loaded, h.size] at this

theorem isDev (h : Dir s dp es) : (s.inode dp).d.isDev = false := by
  rw [Dinode.isDev, h.itype]
  decide

theorem run_readi (h : Dir s dp es) {j : ℕ} (hj : j < es.length) :
    (readi D me dp (16 * j) Dirent.size).run s = .done (16, asBytes es[j]) s := by
  have hlen := h.length_le
  have hrun : (readi D me dp (16 * j) Dirent.size).run s = _ := Vol.run_readi D h.sound h.loaded
    (by rw [h.itype]; decide) h.isDev h.idle h.holes (16 * j) Dirent.size
  have hsize : Dirent.size = 16 := rfl
  rw [hrun, h.content, readResult, length_dirBytes, hsize, if_neg (by omega), drop_dirBytes,
    drop_eq_getElem_cons hj, dirBytes_cons, take_left' (length_asBytes _),
    show min 16 (16 * es.length - 16 * j) = 16 by omega]
  rfl

/-- What `dirlookup` returns for the entry it takes. -/
def Result (s : Vol τ) (o : Option Dirent) (r : Option (Fin NINODE × ℕ)) (s' : Vol τ) : Prop :=
  match o with
  | none => r = none ∧ s' = s
  | some de => ∃ ip off, r = some (ip, off) ∧ Got de.inum.toNat ip s s'

theorem wp_lookupLoop (h : Dir s dp es) (hslot : ∃ jp, (s.inode jp).ref = 0) (name : ℕ → UInt8)
    (fuel j : ℕ) (hj : j ≤ es.length) (hfuel : es.length - j ≤ fuel) :
    (lookupLoop D me dp name fuel (16 * j)).wp noPanic
      (Result s ((es.drop j).find? (Dirent.Starts (nameSlice name)))) s := by
  induction fuel generalizing j with
  | zero =>
    rw [drop_of_length_le (by omega)]
    exact ⟨rfl, rfl⟩
  | succ fuel ih =>
    simp only [lookupLoop, bind_eq, wp_bind, wp_look, h.size]
    rcases Nat.lt_or_ge j es.length with hlt | hge
    · rw [if_pos (by omega), wp_bind]
      refine (wp_noPanic_iff _).2 ⟨_, _, h.run_readi hlt, ?_⟩
      rw [if_neg (show ¬(16 : ℤ) ≠ (Dirent.size : ℤ) by decide), ofBytes_asBytes,
        drop_eq_getElem_cons hlt]
      by_cases hs : Dirent.Starts (nameSlice name) es[j]
      · rw [if_pos ⟨hs.1, (namecmp_iff name _).2 hs.2⟩, find?_cons_of_pos (by simpa using hs),
          wp_bind]
        exact wp_iget _ (Or.inr (Or.inl hslot)) fun ip s' hg => ⟨ip, 16 * j, rfl, hg⟩
      · rw [if_neg fun hc => hs ⟨hc.1, (namecmp_iff name _).1 hc.2⟩,
          find?_cons_of_neg (by simpa using hs)]
        exact ih (j + 1) hlt (by omega)
    · rw [if_neg (by omega), drop_of_length_le hge]
      exact ⟨rfl, rfl⟩

/-- **`dirlookup` takes the first entry that begins with the name.** -/
theorem wp_dirlookup (h : Dir s dp es) (hslot : ∃ jp, (s.inode jp).ref = 0) (name : ℕ → UInt8) :
    (dirlookup D me dp name).wp noPanic (Result s (lookupIn es (nameSlice name))) s := by
  have hdir : (s.inode dp).d.isDir = true := by
    rw [Dinode.isDir, h.itype]
    decide
  simp only [dirlookup, bind_eq, wp_bind, wp_look, hdir, if_true, h.size]
  exact h.wp_lookupLoop hslot name _ 0 (Nat.zero_le _) (by omega)

theorem wp_freeSlotLoop (h : Dir s dp es) (fuel j : ℕ) (hj : j ≤ es.length)
    (hfuel : es.length - j ≤ fuel) {Q : ℕ → Vol τ → Prop}
    (hQ : Q (16 * (j + freeSlot (es.drop j))) s) :
    (freeSlotLoop D me dp fuel (16 * j)).wp noPanic Q s := by
  induction fuel generalizing j with
  | zero =>
    rw [drop_of_length_le (by omega)] at hQ
    exact hQ
  | succ fuel ih =>
    simp only [freeSlotLoop, bind_eq, wp_bind, wp_look, h.size]
    rcases Nat.lt_or_ge j es.length with hlt | hge
    · rw [if_pos (by omega), wp_bind]
      refine (wp_noPanic_iff _).2 ⟨_, _, h.run_readi hlt, ?_⟩
      rw [if_neg (show ¬(16 : ℤ) ≠ (Dirent.size : ℤ) by decide), ofBytes_asBytes]
      rw [drop_eq_getElem_cons hlt, freeSlot, findIdx_cons] at hQ
      by_cases h0 : es[j].inum = 0
      · rw [if_pos h0]
        simpa [h0] using hQ
      · rw [if_neg h0]
        refine ih (j + 1) hlt (by omega) ?_
        simp only [h0, decide_false, cond_false] at hQ
        rwa [freeSlot, Nat.add_assoc, Nat.add_comm 1]
    · rw [if_neg (by omega)]
      rw [drop_of_length_le hge] at hQ
      exact hQ

/-- `iput` of a reference that is not the last one to an unlinked inode. -/
theorem wp_iput_drop {ip : Fin NINODE} {Q : Unit → Vol τ → Prop}
    (hlast : ¬((s.inode ip).ref = 1 ∧ (s.inode ip).valid = true ∧ (s.inode ip).d.nlink = 0))
    (hQ : Q () (s.modInode ip fun x => { x with ref := x.ref - 1 })) :
    (iput me ip).wp noPanic Q s := by
  simp only [iput, bind_eq, wp_bind, wp_critical, iputSection]
  exact .inl ⟨false, _, if_neg hlast, hQ⟩

/-- `iput` of an entry just obtained gives the reference back and no more. -/
theorem wp_iput_got {i : ℕ} {ip : Fin NINODE} (hg : Got i ip s s') {Q : Unit → Vol τ → Prop}
    (hQ : Q () (s'.modInode ip fun x => { x with ref := x.ref - 1 })) :
    (iput me ip).wp noPanic Q s' := by
  refine wp_iput_drop ?_ hQ
  rintro ⟨h1, h2, -⟩
  rcases Nat.eq_zero_or_pos (s.inode ip).ref with h0 | h0
  · rw [(hg.miss h0).2] at h2
    exact Bool.noConfusion h2
  · rw [(hg.hit h0).2] at h1
    change (s.inode ip).ref + 1 = 1 at h1
    omega

theorem content_got {i : ℕ} {ip : Fin NINODE} (h : Dir s dp es) (hg : Got i ip s s') :
    (s'.modInode ip fun x => { x with ref := x.ref - 1 }).content (s.num dp) =
      s.content (s.num dp) := by
  have hdp : (s'.modInode ip fun x => { x with ref := x.ref - 1 }).inode dp = s.inode dp := by
    by_cases hip : dp = ip
    · subst hip
      rw [inode_modInode_self, (hg.hit h.loaded.1).2]
      rfl
    · rw [inode_modInode_of_ne hip, hg.of_ne hip]
  have hdist : (s'.modInode ip fun x => { x with ref := x.ref - 1 }).Distinct :=
    (hg.distinct h.sound.slots).modInode (fun _ => hg.ref) rfl
  have hl : (s'.modInode ip fun x => { x with ref := x.ref - 1 }).Loaded dp := by
    rw [Loaded, hdp]
    exact h.loaded
  have hd := hdist.dinode_num hl
  rw [num, hdp] at hd
  exact content_congr hg.frame.1 hg.frame.2.1 (hd.trans (h.sound.dinode_num h.loaded).symm)

/-- `dirlink` of a name for which an entry is found. -/
theorem run_dirlink_found (h : Dir s dp es) (hslot : ∃ jp, (s.inode jp).ref = 0) (name : ℕ → UInt8)
    (inum : ℕ) {de : Dirent} (hde : lookupIn es (nameSlice name) = some de) :
    ∃ s', (dirlink D me dp name inum).run s = .done (-1) s' ∧
      s'.content (s.num dp) = s.content (s.num dp) := by
  have hwp : (dirlink D me dp name inum).wp noPanic
      (fun r s' => r = -1 ∧ s'.content (s.num dp) = s.content (s.num dp)) s := by
    simp only [dirlink, bind_eq, wp_bind]
    refine wp_mono (h.wp_dirlookup hslot name) ?_
    rw [hde]
    rintro _ t ⟨ip, off, rfl, hg⟩
    simp only [wp_bind]
    exact wp_iput_got hg ⟨rfl, h.content_got hg⟩
  obtain ⟨r, s', hrun, rfl, hc⟩ := (wp_noPanic_iff _).1 hwp
  exact ⟨s', hrun, hc⟩

/-- `dirlink` of a name for which none is. -/
theorem run_dirlink_new (h : Dir s dp es) (hslot : ∃ jp, (s.inode jp).ref = 0) (name : ℕ → UInt8)
    (inum : ℕ) (hnone : lookupIn es (nameSlice name) = none)
    (hfit : 16 * (freeSlot es + 1) ≤ MAXFILE * BSIZE)
    (hspare : s.newBlocks (s.num dp) (span (16 * freeSlot es) 16) ≤ s.free.length)
    (hroom : s.log.Room (s.writeSet dp (16 * freeSlot es) 16)) :
    ∃ s', (dirlink D me dp name inum).run s = .done 0 s' ∧
      Dir s' dp (linked es (freeSlot es) (newEntry name inum)) ∧ ∃ jp, (s'.inode jp).ref = 0 := by
  have hle := freeSlot_le es
  have hoff : 16 * freeSlot es ≤ (s.inode dp).d.size.toNat := by
    rw [h.size]
    omega
  have htype : (s.inode dp).d.itype ≠ 0 := by
    rw [h.itype]
    decide
  have hwp : (dirlink D me dp name inum).wp noPanic (fun r s' => r = 0 ∧
      Overwritten dp (newEntry name inum).toBytes (16 * freeSlot es) 16 s s') s := by
    simp only [dirlink, bind_eq, wp_bind]
    refine wp_mono (h.wp_dirlookup hslot name) ?_
    rw [hnone]
    rintro _ t ⟨rfl, rfl⟩
    simp only [wp_bind, wp_look, h.size]
    refine h.wp_freeSlotLoop _ 0 (Nat.zero_le _) (by omega) ?_
    rw [drop_zero, Nat.zero_add]
    refine wp_mono (wp_writei D h.sound h.loaded htype h.isDev h.idle _ hoff hfit
      (Or.inl hspare) (Or.inl hroom) (Finset.Subset.refl _)) ?_
    rintro r t' ⟨rfl, ho, -⟩
    rw [if_neg (not_not.2 rfl)]
    exact ⟨rfl, ho⟩
  obtain ⟨r, s', hrun, rfl, ho⟩ := (wp_noPanic_iff _).1 hwp
  have hf := ho.framed
  refine ⟨s', hrun, ⟨hf.sound, fun x => by rw [hf.held]; exact h.idle x, hf.loaded h.loaded,
    hf.itype.trans h.itype, ho.noHoles h.sound h.loaded hoff h.holes, ?_⟩, ?_⟩
  · rw [hf.num, ho.content h.sound h.loaded hoff, h.content]
    exact overwrite_dirBytes es _ _
  · obtain ⟨jp, hj⟩ := hslot
    refine ⟨jp, ?_⟩
    rw [hf.slots jp fun he => absurd h.loaded.1 (by rw [← he, hj]; exact Nat.lt_irrefl 0), hj]

end Dir

/-- `dirlookup` of the name gives the inode with this number, or none. -/
def Finds (D : Devsw τ) (me : τ) (s : Vol τ) (dp : Fin NINODE) (name : ℕ → UInt8) (o : Option ℕ) :
    Prop :=
  ∃ r s', (dirlookup D me dp name).run s = .done r s' ∧ r.map (fun x => s'.num x.1) = o

theorem Dir.finds_iff (h : Dir s dp es) (hslot : ∃ jp, (s.inode jp).ref = 0) (name : ℕ → UInt8)
    (o : Option ℕ) : Finds D me s dp name o ↔
      (lookupIn es (nameSlice name)).map (fun de => de.inum.toNat) = o := by
  obtain ⟨r, s', hrun, hr⟩ :=
    (wp_noPanic_iff _).1 (@Dir.wp_dirlookup _ _ me _ _ D h hslot name)
  have hres : r.map (fun x => s'.num x.1) =
      (lookupIn es (nameSlice name)).map fun de => de.inum.toNat := by
    cases hl : lookupIn es (nameSlice name) with
    | none =>
      rw [hl] at hr
      rw [hr.1]
      rfl
    | some de =>
      rw [hl] at hr
      obtain ⟨ip, off, rfl, hg⟩ := hr
      exact congrArg some hg.num
  rw [← hres]
  constructor
  · rintro ⟨r', s'', hrun', ho⟩
    rw [hrun] at hrun'
    cases hrun'
    exact ho
  · exact fun ho => ⟨r, s', hrun, ho⟩

/-! ## When a directory is a map -/

/-- The C string with these bytes. -/
def cString (q : List UInt8) : ℕ → UInt8 := fun i => q.getD i 0

theorem nameLen_of {name : ℕ → UInt8} {n : ℕ} (hn : n ≤ DIRSIZ) (hlt : ∀ i, i < n → name i ≠ 0)
    (hz : name n = 0) : nameLen name = n := by
  refine Nat.le_antisymm (Nat.le_of_not_lt fun h => name_ne_zero h hz) ?_
  have hsplit : List.range DIRSIZ = List.range n ++ (List.range (DIRSIZ - n)).map (n + ·) := by
    rw [← range_add, Nat.add_sub_cancel' hn]
  rw [nameLen, hsplit, takeWhile_append_of_pos]
  · simp
  · intro i hi
    simpa using hlt i (mem_range.1 hi)

theorem nameSlice_cString {q : List UInt8} (hq : ∀ c ∈ q, c ≠ 0) (hn : q.length ≤ DIRSIZ) :
    nameSlice (cString q) = q := by
  have hlen : nameLen (cString q) = q.length := by
    refine nameLen_of hn (fun i hi => ?_) (getD_eq_default _ _ le_rfl)
    rw [cString, getD_eq_getElem _ _ hi]
    exact hq _ (getElem_mem hi)
  rw [nameSlice, hlen]
  refine ext_getElem (by simp) fun i h1 h2 => ?_
  simp [cString, h2]

theorem storedName_newEntry (name : ℕ → UInt8) (inum : ℕ) :
    (newEntry name inum).storedName = nameSlice name := by
  have hle := nameLen_le name
  have hsplit : List.ofFn (newEntry name inum).name =
      nameSlice name ++ List.replicate (DIRSIZ - nameLen name) 0 := by
    refine ext_getElem ?_ fun i h1 h2 => ?_
    · rw [length_append, length_ofFn, length_replicate, length_nameSlice]
      omega
    rw [getElem_append, List.getElem_ofFn]
    simp only [newEntry, length_nameSlice, Nat.min_eq_left hle]
    split_ifs with hi
    · simp [nameSlice]
    · simp
  rw [Dirent.storedName, hsplit, takeWhile_append_of_pos]
  · cases DIRSIZ - nameLen name <;> simp [replicate_succ]
  · intro c hc
    simpa using nameSlice_ne_zero name c hc

theorem toNat_newEntry (name : ℕ → UInt8) {inum : ℕ} (hlt : inum < 65536) :
    (newEntry name inum).inum.toNat = inum := Nat.mod_eq_of_lt hlt

theorem starts_newEntry (name : ℕ → UInt8) {inum : ℕ} (h0 : 0 < inum) (hlt : inum < 65536)
    (p : List UInt8) : (newEntry name inum).Starts p ↔ p <+: nameSlice name := by
  have hne : (newEntry name inum).inum ≠ 0 := by
    intro h
    have := toNat_newEntry name hlt
    rw [h] at this
    exact absurd this h0.ne
  rw [Dirent.Starts, storedName_newEntry, and_iff_right hne]

/-- The inode number that `dirlookup` finds for the name with these bytes. -/
def found (es : List Dirent) (p : List UInt8) : Option ℕ :=
  (lookupIn es p).map fun de => de.inum.toNat

/-- The prefix comparison does no harm to the name `q`: the first entry that begins
with it is the first with that name, and when a new entry for it goes to the first free
place, a name that `q` begins with is found before that place or is found to be `inum`
already. -/
structure Unambiguous (es : List Dirent) (q : List UInt8) (inum : ℕ) : Prop where
  exact : found es q = (exactIn es q).map fun de => de.inum.toNat
  shadowed : exactIn es q = none → ∀ p, p <+: q → p ≠ q →
    (∃ de ∈ es.take (freeSlot es), de.Starts p) ∨ found es p = some inum

/-- The directory acts as a map from exact names, as far as this name goes. -/
structure ActsAsMap (D : Devsw τ) (me : τ) (s : Vol τ) (dp : Fin NINODE) (es : List Dirent)
    (name : ℕ → UInt8) (inum : ℕ) : Prop where
  /-- `dirlookup` gives the first entry with exactly that name. -/
  lookup : Finds D me s dp name ((exactIn es (nameSlice name)).map fun de => de.inum.toNat)
  /-- `dirlink` fails exactly if there is one, and otherwise adds it and nothing else. -/
  link : ∃ r s', (dirlink D me dp name inum).run s = .done r s' ∧
    (r = -1 ↔ (exactIn es (nameSlice name)).isSome) ∧
    (r = -1 → s'.content (s.num dp) = s.content (s.num dp)) ∧
    (exactIn es (nameSlice name) = none → Finds D me s' dp name (some inum) ∧
      ∀ name', nameSlice name' ≠ nameSlice name →
        ∀ o, Finds D me s' dp name' o ↔ Finds D me s dp name' o)

/-- What is found once the new entry is written. -/
theorem found_linked (es : List Dirent) (name : ℕ → UInt8) {inum : ℕ} (h0 : 0 < inum)
    (hlt : inum < 65536) (p : List UInt8) :
    found (linked es (freeSlot es) (newEntry name inum)) p =
      if p <+: nameSlice name ∧ ¬∃ de ∈ es.take (freeSlot es), de.Starts p then some inum
      else found es p := by
  rw [found, found, lookupIn, lookupIn, find_split (p := Dirent.Starts p) (fun _ h => h.1) es,
    find_linked]
  simp only [starts_newEntry name h0 hlt]
  cases htake : (es.take (freeSlot es)).find? fun de => decide (de.Starts p) with
  | some de =>
    have hex : ∃ de ∈ es.take (freeSlot es), de.Starts p :=
      ⟨de, mem_of_find?_eq_some htake, by simpa using find?_some htake⟩
    rw [Option.some_or, Option.some_or, if_neg (not_and_of_not_right _ (not_not.2 hex))]
  | none =>
    have hnone : ¬∃ de ∈ es.take (freeSlot es), de.Starts p := by
      rintro ⟨de, hde, hs⟩
      exact find?_eq_none.1 htake de hde (decide_eq_true hs)
    rw [Option.none_or, Option.none_or]
    by_cases hp : p <+: nameSlice name
    · rw [if_pos hp, if_pos ⟨hp, hnone⟩, Option.map_some, toNat_newEntry name hlt]
    · rw [if_neg hp, if_neg fun h => hp h.1]

theorem lookupIn_isSome_of_exactIn {q : List UInt8} (h : (exactIn es q).isSome) :
    (lookupIn es q).isSome := by
  rw [exactIn, find?_isSome] at h
  obtain ⟨de, hde, hn⟩ := h
  rw [lookupIn, find?_isSome]
  exact ⟨de, hde, decide_eq_true (of_decide_eq_true hn).starts⟩

/-- When the name has no entry that begins with it, the new one changes no other name
exactly if the shorter ones are shadowed. -/
theorem found_linked_other (name : ℕ → UInt8) {inum : ℕ} (h0 : 0 < inum) (hlt : inum < 65536) :
    (∀ name', nameSlice name' ≠ nameSlice name →
      found (linked es (freeSlot es) (newEntry name inum)) (nameSlice name') =
        found es (nameSlice name')) ↔
      ∀ p, p <+: nameSlice name → p ≠ nameSlice name →
        (∃ de ∈ es.take (freeSlot es), de.Starts p) ∨ found es p = some inum := by
  constructor
  · intro h p hp hne
    rw [or_iff_not_imp_left]
    intro hnone
    have hlen : p.length ≤ DIRSIZ :=
      hp.length_le.trans ((length_nameSlice name).trans_le (nameLen_le name))
    have hq := nameSlice_cString (fun c hc => nameSlice_ne_zero name c (hp.subset hc)) hlen
    have hsame := h (cString p) (by rwa [hq])
    rw [hq, found_linked es name h0 hlt, if_pos ⟨hp, hnone⟩] at hsame
    exact hsame.symm
  · intro h name' hne
    rw [found_linked es name h0 hlt]
    split_ifs with hc
    · exact ((h _ hc.1 hne).resolve_left hc.2).symm
    · rfl

/-- **A directory is a map for a name exactly if no prefix gets in the way.**  For any
entries, with a free place in the inode cache for the lookup and room in the file, on the
volume and in the log for one more entry. -/
theorem dir_exact_iff (D : Devsw τ) (h : Dir s dp es) (hslot : ∃ jp, (s.inode jp).ref = 0)
    (name : ℕ → UInt8) {inum : ℕ} (h0 : 0 < inum) (hlt : inum < 65536)
    (hfit : 16 * (freeSlot es + 1) ≤ MAXFILE * BSIZE)
    (hspare : s.newBlocks (s.num dp) (span (16 * freeSlot es) 16) ≤ s.free.length)
    (hroom : s.log.Room (s.writeSet dp (16 * freeSlot es) 16)) :
    ActsAsMap D me s dp es name inum ↔ Unambiguous es (nameSlice name) inum := by
  have hlook : Finds D me s dp name ((exactIn es (nameSlice name)).map fun de => de.inum.toNat) ↔
      found es (nameSlice name) = (exactIn es (nameSlice name)).map fun de => de.inum.toNat :=
    h.finds_iff hslot name _
  cases hl : lookupIn es (nameSlice name) with
  | some de =>
    obtain ⟨s', hrun, hc⟩ := @Dir.run_dirlink_found _ _ me _ _ D h hslot name inum _ hl
    have hsome : found es (nameSlice name) = some de.inum.toNat := congrArg _ hl
    constructor
    · intro hm
      have he := hlook.1 hm.lookup
      refine ⟨he, fun hnone => ?_⟩
      rw [hnone, hsome] at he
      cases he
    · intro hu
      have hex : (exactIn es (nameSlice name)).isSome := by
        obtain ⟨e, he, -⟩ := Option.map_eq_some_iff.1 (hu.exact.symm.trans hsome)
        rw [he]
        rfl
      refine ⟨hlook.2 hu.exact, -1, s', hrun, iff_of_true rfl hex, fun _ => hc, fun hnone => ?_⟩
      rw [hnone] at hex
      exact Bool.noConfusion hex
  | none =>
    obtain ⟨s', hrun, hdir, hslot'⟩ :=
      @Dir.run_dirlink_new _ _ me _ _ D h hslot name inum hl hfit hspare hroom
    have hnone : exactIn es (nameSlice name) = none := by
      by_contra hne
      have := lookupIn_isSome_of_exactIn (Option.isSome_iff_ne_none.2 hne)
      rw [hl] at this
      exact Bool.noConfusion this
    have hnofound : found es (nameSlice name) = none := congrArg _ hl
    -- lookups after the link, in terms of the two lists
    have hother : (∀ name', nameSlice name' ≠ nameSlice name →
        ∀ o, Finds D me s' dp name' o ↔ Finds D me s dp name' o) ↔
        ∀ name', nameSlice name' ≠ nameSlice name →
          found (linked es (freeSlot es) (newEntry name inum)) (nameSlice name') =
            found es (nameSlice name') := by
      refine forall_congr' fun name' => imp_congr_right fun _ => ?_
      simp only [hdir.finds_iff hslot', h.finds_iff hslot]
      exact ⟨fun he => ((he _).1 rfl).symm, fun he o => by rw [← found, ← found, he]⟩
    constructor
    · intro hm
      refine ⟨hlook.1 hm.lookup, fun _ => (found_linked_other name h0 hlt).1 (hother.1 ?_)⟩
      obtain ⟨r, t, hrun', -, -, hnew⟩ := hm.link
      rw [hrun] at hrun'
      cases hrun'
      exact (hnew hnone).2
    · intro hu
      refine ⟨hlook.2 hu.exact, 0, s', hrun, ?_, fun h1 => absurd h1 (by decide), fun _ => ⟨?_, ?_⟩⟩
      · rw [hnone]
        decide
      · have hnew : ¬∃ de ∈ es.take (freeSlot es), de.Starts (nameSlice name) := by
          rintro ⟨de, hde, hs⟩
          exact find?_eq_none.1 hl de (mem_of_mem_take hde) (decide_eq_true hs)
        refine (hdir.finds_iff hslot' name _).2 ?_
        rw [← found, found_linked es name h0 hlt, if_pos ⟨prefix_refl _, hnew⟩]
      · exact hother.2 ((found_linked_other name h0 hlt).2 (hu.shadowed hnone))

/-! ## The root directory of an image -/

/-- The root directory of an image with the file `ab`, locked in a transaction, with room
for another entry. -/
theorem root_ab : ∃ s : Vol Unit, Dir s 0 (entries [[97, 98]]) ∧ (∃ jp, (s.inode jp).ref = 0) ∧
    s.newBlocks (s.num 0) (span 48 16) ≤ s.free.length ∧ s.log.Room (s.writeSet 0 48 16) := by
  obtain ⟨m, hb, hfree⟩ := built_empty [97, 98]
  obtain ⟨hs, hrefs, hl, hnum, hd⟩ := sound_withInode hb.shows.sound (fun _ => rfl)
    (hb.shows.lt_ninodes (show 1 < 200 by decide))
  let s : Vol Unit := { withInode m.vol 1 with log := (Log.fresh 2 30).enter }
  have hsound : Sound s := hs.relog _
  have hnum' : s.num 0 = 1 := hnum
  have hd' : s.dinode 1 = (m.vol).dinode 1 := hd 1
  have hnew : s.newBlocks (s.num 0) (span 48 16) ≤ s.free.length :=
    le_trans (newBlocks_le _ _ _ _) (le_trans (by decide) hfree)
  have hslot : ((withInode m.vol 1).inode 0).d = (m.vol).dinode 1 := by rw [inode_withInode]
  have hholes : s.NoHoles 1 := by
    intro k hk
    rw [hd'] at hk
    change (withInode m.vol 1).blockAt 1 k ≠ 0
    rw [blockAt, hrefs]
    exact hb.root.holes k hk
  have hcontent : s.content 1 = dirBytes (entries [[97, 98]]) := by
    rw [← hb.root.content]
    exact content_congr rfl rfl hd'
  refine ⟨s, ⟨hsound, fun _ => rfl, hl, hslot ▸ hb.root.itype, hnum'.symm ▸ hholes,
    hnum'.symm ▸ hcontent⟩, ⟨1, rfl⟩, hnew, nodup_nil, le_refl _, rfl, ?_⟩
  change (∅ ∪ s.writeSet 0 48 16).card < 29
  rw [Finset.empty_union, hsound.card_writeSet hl hnew]
  exact lt_of_le_of_lt (cost_layout hb.shows.sb _ _ _).2 (by decide)

/-- A second name, `b`, for the file. -/
theorem dir_exact_iff_ab : ∃ s s' : Vol Unit, Dir s 0 (entries [[97, 98]]) ∧
    (dirlink noDev () 0 (cString [98]) 2).run s = .done 0 s' ∧
    Finds noDev () s' 0 (cString [98]) (some 2) := by
  obtain ⟨s, hdir, hslot, hnew, hroom⟩ := root_ab
  have hname : nameSlice (cString [98]) = [98] := by decide
  have hfree : freeSlot (entries [[97, 98]]) = 3 := by decide
  have hnone : exactIn (entries [[97, 98]]) [98] = none := by decide
  have hu : Unambiguous (entries [[97, 98]]) (nameSlice (cString [98])) 2 := by
    rw [hname]
    refine ⟨by decide, fun _ p hp hne => Or.inl ?_⟩
    have hnil : p = [] := by
      rcases prefix_cons_iff.1 hp with h | ⟨t, rfl, ht⟩
      · exact h
      · exact absurd (by rw [prefix_nil.1 ht]) hne
    subst hnil
    decide
  obtain ⟨-, r, s', hrun, hr, -, hfound⟩ := (dir_exact_iff noDev hdir hslot (cString [98])
    (by decide) (by decide) (by rw [hfree]; decide) (by rw [hfree]; exact hnew)
    (by rw [hfree]; exact hroom)).2 hu
  rw [hname, hnone] at hr
  obtain ⟨t, hrun', -⟩ := @Dir.run_dirlink_new _ _ () _ _ noDev hdir hslot (cString [98]) 2
    (by decide) (by rw [hfree]; decide) (by rw [hfree]; exact hnew) (by rw [hfree]; exact hroom)
  rw [hrun] at hrun'
  cases hrun'
  exact ⟨s, s', hdir, hrun, (hfound (by rw [hname, hnone])).1⟩

/-- No file has the name `a`, and `dirlookup` finds `ab`; `dirlink` refuses the name. -/
theorem dir_prefix_found : ∃ s s' : Vol Unit, Dir s 0 (entries [[97, 98]]) ∧
    exactIn (entries [[97, 98]]) (nameSlice (cString [97])) = none ∧
    Finds noDev () s 0 (cString [97]) (some 2) ∧
    (dirlink noDev () 0 (cString [97]) 3).run s = .done (-1) s' := by
  obtain ⟨s, hdir, hslot, -⟩ := root_ab
  have hl : lookupIn (entries [[97, 98]]) (nameSlice (cString [97])) = some (entry 2 [97, 98]) := by
    decide
  obtain ⟨s', hrun, -⟩ := @Dir.run_dirlink_found _ _ () _ _ noDev hdir hslot (cString [97]) 3 _ hl
  refine ⟨s, s', hdir, by decide, (hdir.finds_iff hslot _ _).2 ?_, hrun⟩
  rw [hl]
  rfl

end Vol

end Xv6.Fs
