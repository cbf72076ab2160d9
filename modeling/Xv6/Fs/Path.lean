import Xv6.Fs.Directory

/-!
# Path names

`namex` takes a path apart with `skipelem`, which copies one element after the other into
a buffer it reuses, and goes from directory to directory with `dirlookup`.  On every way
out it has to give back the references and the lock it took.

* `components` — the elements of a path; `skipelem_some` — `skipelem` takes the next one.
* `walk`, `parentOf` — where a path leads, in terms of the entries of the directories.
* `Visiting` — what the inode cache looks like while somebody holds references for a while.
* `namei_nameiparent` — the two calls follow the path and keep one reference.
-/

namespace Xv6.Fs

namespace Vol

open Lib Prog Mkfs.Tool Function List

/-! ## Elements of a path -/

/-- `b'/'`. -/
abbrev slash : UInt8 := 47

/-- The copy at the end of `skipelem`: what is left of the buffer stays. -/
def copyElem (elem : List UInt8) (name : ℕ → UInt8) : ℕ → UInt8 :=
  let copy_len := min elem.length DIRSIZ
  fun i =>
    if i < copy_len then elem.getD i 0
    else if copy_len < DIRSIZ ∧ i = copy_len then 0
    else name i

/-- `skipelem`.  A path is the list of its bytes up to the NUL, so `*p` is the head, or 0. -/
def skipelem (path : List UInt8) (name : ℕ → UInt8) : Option (List UInt8 × (ℕ → UInt8)) :=
  let s := path.dropWhile fun c => c == slash
  if s.headD 0 = 0 then none
  else
    let p := s.dropWhile fun c => c != slash && c != 0
    let elem := s.takeWhile fun c => c != slash && c != 0
    some (p.dropWhile fun c => c == slash, copyElem elem name)

/-- The elements of a path: its maximal runs of bytes other than `/`, cut to `DIRSIZ`. -/
def components (path : List UInt8) : List (List UInt8) :=
  ((path.splitOnP (· == slash)).filter (· ≠ [])).map fun q => q.take DIRSIZ

@[simp] theorem components_nil : components [] = [] := by
  simp [components]

@[simp] theorem components_slash (path : List UInt8) :
    components (slash :: path) = components path := by
  simp [components, splitOnP_cons_eq_if_modifyHead]

@[simp] theorem components_dropWhile (path : List UInt8) :
    components (path.dropWhile fun c => c == slash) = components path := by
  induction path with
  | nil => rfl
  | cons c path ih =>
    by_cases hc : c = slash
    · subst hc
      simp [ih]
    · rw [dropWhile_cons_of_neg (by simpa using hc)]

/-- The first element ends at the first slash. -/
theorem components_cons {c : UInt8} (hc : c ≠ slash) (path : List UInt8) :
    components (c :: path) = ((c :: path).takeWhile fun x => x != slash).take DIRSIZ ::
      components ((c :: path).dropWhile fun x => x != slash) := by
  have hno : ∀ x ∈ (c :: path).takeWhile fun x => x != slash, (x == slash) = false := by
    intro x hx
    simpa using mem_takeWhile_imp hx
  have hne : (c :: path).takeWhile (fun x => x != slash) ≠ [] := by
    simp [hc]
  have hsplit := takeWhile_append_dropWhile (p := fun x => x != slash) (l := c :: path)
  cases hr : (c :: path).dropWhile fun x => x != slash with
  | nil =>
    rw [hr, List.append_nil] at hsplit
    rw [components_nil, components]
    nth_rewrite 1 [← hsplit]
    rw [splitOnP_eq_singleton hno]
    simp [hne]
  | cons d rest =>
    have hd : d = slash := by
      have := head?_dropWhile_not (fun x => x != slash) (c :: path)
      rw [hr] at this
      simpa using this
    subst hd
    rw [hr] at hsplit
    rw [components_slash, components]
    nth_rewrite 1 [← hsplit]
    rw [splitOnP_append_cons _ _ (by simp), splitOnP_eq_singleton hno]
    simp [hne, components]

theorem takeWhile_noNul {s : List UInt8} (hs : 0 ∉ s) :
    (s.takeWhile fun c => c != slash && c != 0) = s.takeWhile (fun c => c != slash) ∧
    (s.dropWhile fun c => c != slash && c != 0) = s.dropWhile fun c => c != slash := by
  induction s with
  | nil => exact ⟨rfl, rfl⟩
  | cons c s ih =>
    rw [mem_cons, not_or] at hs
    have hc : (c != 0) = true := by simpa using Ne.symm hs.1
    simp only [takeWhile_cons, dropWhile_cons, hc, Bool.and_true, (ih hs.2).1, (ih hs.2).2,
      and_self]

theorem nameSlice_copyElem {elem : List UInt8} (h : 0 ∉ elem) (name : ℕ → UInt8) :
    nameSlice (copyElem elem name) = elem.take DIRSIZ := by
  have hget : ∀ i, i < min elem.length DIRSIZ → copyElem elem name i = elem.getD i 0 := by
    intro i hi
    simp only [copyElem, if_pos hi]
  have hlen : nameLen (copyElem elem name) = min elem.length DIRSIZ := by
    have hne : ∀ i, i < min elem.length DIRSIZ → copyElem elem name i ≠ 0 := by
      intro i hi he
      rw [hget i hi, getD_eq_getElem _ _ (by omega)] at he
      exact h (he ▸ getElem_mem _)
    by_cases hd : min elem.length DIRSIZ < DIRSIZ
    · refine nameLen_of (le_of_lt hd) hne ?_
      simp only [copyElem, lt_irrefl, if_false, hd, and_self, if_true]
    · -- no NUL is written: the whole buffer is the name
      have hall : min elem.length DIRSIZ = DIRSIZ := by omega
      rw [hall] at hne ⊢
      rw [nameLen, takeWhile_eq_self_iff.2, length_range]
      intro i hi
      simpa using hne i (mem_range.1 hi)
  rw [nameSlice, hlen]
  refine ext_getElem (by simp [Nat.min_comm]) fun i h1 h2 => ?_
  simp only [length_map, length_range] at h1
  simp only [getElem_map, getElem_range, getElem_take]
  rw [hget i h1, getD_eq_getElem _ _ (by omega)]

theorem ne_slash_of_dropWhile {path s : List UInt8} {c : UInt8}
    (h : (path.dropWhile fun c => c == slash) = c :: s) : c ≠ slash := by
  have hhead := head?_dropWhile_not (fun c => c == slash) path
  rw [h] at hhead
  simpa using hhead

theorem headD_eq_zero_iff {s : List UInt8} (hs : 0 ∉ s) : s.headD 0 = 0 ↔ s = [] := by
  cases s with
  | nil => simp
  | cons c s =>
    rw [mem_cons, not_or] at hs
    simpa using Ne.symm hs.1

/-- A path that does not begin with a slash is at its end exactly if it has no elements. -/
theorem components_eq_nil_iff (path : List UInt8) :
    components path = [] ↔ (path.dropWhile fun c => c == slash) = [] := by
  rw [← components_dropWhile]
  cases hd : path.dropWhile fun c => c == slash with
  | nil => simp
  | cons c s =>
    have hc := ne_slash_of_dropWhile hd
    simp [components_cons hc]

/-- **`skipelem` finds nothing exactly if there are no elements left.** -/
theorem skipelem_none {path : List UInt8} (hpath : 0 ∉ path) (name : ℕ → UInt8) :
    skipelem path name = none ↔ components path = [] := by
  have hs : 0 ∉ path.dropWhile fun c => c == slash :=
    fun h => hpath ((dropWhile_sublist _).subset h)
  rw [components_eq_nil_iff, ← headD_eq_zero_iff hs]
  simp [skipelem]

/-- **`skipelem` puts the next element into the buffer.**  What it returns is at the end
exactly if that was the last one. -/
theorem skipelem_some {path rest : List UInt8} {name name' : ℕ → UInt8} (hpath : 0 ∉ path)
    (h : skipelem path name = some (rest, name')) :
    components path = nameSlice name' :: components rest ∧ 0 ∉ rest ∧
      rest.length < path.length ∧ (rest.headD 0 = 0 ↔ components rest = []) := by
  simp only [skipelem] at h
  split_ifs at h with h0
  obtain ⟨rfl, rfl⟩ := Prod.mk.inj (Option.some.inj h)
  have hs : 0 ∉ path.dropWhile fun c => c == slash :=
    fun h => hpath ((dropWhile_sublist _).subset h)
  rw [headD_eq_zero_iff hs] at h0
  have hlen := (dropWhile_sublist (l := path) fun c => c == slash).length_le
  rw [(takeWhile_noNul hs).1, (takeWhile_noNul hs).2, ← components_dropWhile path]
  cases hd : path.dropWhile fun c => c == slash with
  | nil => exact absurd hd h0
  | cons c s =>
    have hc := ne_slash_of_dropWhile hd
    rw [hd] at hs hlen
    have hrest : 0 ∉ ((c :: s).dropWhile fun c => c != slash).dropWhile fun c => c == slash :=
      fun h => hs ((dropWhile_sublist _).subset ((dropWhile_sublist _).subset h))
    refine ⟨?_, hrest, ?_, ?_⟩
    · have helem : 0 ∉ (c :: s).takeWhile fun c => c != slash :=
        fun h => hs ((takeWhile_sublist _).subset h)
      rw [nameSlice_copyElem helem, components_dropWhile, components_cons hc]
    · have h1 := (dropWhile_sublist (l := (c :: s).dropWhile fun c => c != slash)
        fun c => c == slash).length_le
      have h2 := (dropWhile_sublist (l := s) fun c => c != slash).length_le
      rw [dropWhile_cons_of_pos (by simpa using hc)] at h1 ⊢
      rw [length_cons] at hlen
      omega
    · rw [headD_eq_zero_iff hrest, components_dropWhile, components_eq_nil_iff]

/-! ## The calls -/

variable {τ : Type}

/-- `iunlockput`. -/
def iunlockput (me : τ) (ip : Fin NINODE) : Prog (Vol τ) Unit := do
  iunlock ip
  iput me ip

/-- The loop of `namex`; each turn takes an element off the path, so its length is enough
fuel. -/
def namexLoop (D : Devsw τ) (me : τ) (find_parent : Bool) :
    ℕ → List UInt8 → (ℕ → UInt8) → Fin NINODE →
      Prog (Vol τ) (Option (Fin NINODE) × (ℕ → UInt8))
  | 0, _, name, _ => pure (none, name)
  | fuel + 1, cur_path, name, ip =>
    match skipelem cur_path name with
    | none =>
      if find_parent then do
        iput me ip
        pure (none, name)
      else pure (some ip, name)
    | some (remaining, name) => do
      ilock me ip
      let d ← .look fun s => (s.inode ip).d
      if d.isDir = false then do
        iunlockput me ip
        pure (none, name)
      else if find_parent = true ∧ remaining.headD 0 = 0 then do
        iunlock ip
        pure (some ip, name)
      else do
        let next ← dirlookup D me ip name
        iunlockput me ip
        match next with
        | none => pure (none, name)
        | some (next, _) => namexLoop D me find_parent fuel remaining name next

/-- `namex`: the inode and what is in the buffer. -/
def namex (D : Devsw τ) (me : τ) (cwd : Fin NINODE) (path : List UInt8)
    (find_parent : Bool) (name : ℕ → UInt8) : Prog (Vol τ) (Option (Fin NINODE) × (ℕ → UInt8)) := do
  let ip ← if path.headD 0 = slash then iget ROOTINO else idup cwd
  namexLoop D me find_parent (path.length + 1) path name ip

/-- `namei`. -/
def namei (D : Devsw τ) (me : τ) (cwd : Fin NINODE) (path : List UInt8) :
    Prog (Vol τ) (Option (Fin NINODE)) := do
  let r ← namex D me cwd path false fun _ => 0
  pure r.1

/-- `nameiparent`: the inode and the caller's buffer, which is written only if there is one. -/
def nameiparent (D : Devsw τ) (me : τ) (cwd : Fin NINODE) (path : List UInt8)
    (name : ℕ → UInt8) : Prog (Vol τ) (Option (Fin NINODE) × (ℕ → UInt8)) := do
  let r ← namex D me cwd path true fun _ => 0
  pure (r.1, if r.1.isSome then fun i => if i < DIRSIZ then r.2 i else name i else name)

/-! ## Where a path leads -/

/-- Some inodes of a volume, closed under looking up names. -/
structure Directories (s : Vol τ) (R : ℕ → Prop) (ents : ℕ → List Dirent) : Prop where
  /-- Each of them is in use. -/
  used : ∀ i, R i → s.InUse i
  /-- Each is linked somewhere, or somebody else has a reference to it. -/
  kept : ∀ i, R i → (s.dinode i).nlink ≠ 0 ∨ ∃ jp, 0 < (s.inode jp).ref ∧ s.num jp = i
  /-- A directory has no holes. -/
  holes : ∀ i, R i → (s.dinode i).isDir = true → s.NoHoles i
  /-- These are its entries. -/
  content : ∀ i, R i → (s.dinode i).isDir = true → s.content i = dirBytes (ents i)
  /-- What an entry stands for is one of the inodes. -/
  closed : ∀ i, R i → (s.dinode i).isDir = true → ∀ de ∈ ents i, de.inum ≠ 0 → R de.inum.toNat

/-- The inode reached from inode `i` by looking up one element after the other. -/
def walk (s : Vol τ) (ents : ℕ → List Dirent) : ℕ → List (List UInt8) → Option ℕ
  | i, [] => some i
  | i, q :: qs =>
    if (s.dinode i).isDir then (lookupIn (ents i) q).bind fun de => walk s ents de.inum.toNat qs
    else none

/-- The directory the last element is to be looked up in. -/
def parentOf (s : Vol τ) (ents : ℕ → List Dirent) (i : ℕ) (qs : List (List UInt8)) : Option ℕ :=
  if qs = [] then none else (walk s ents i qs.dropLast).filter fun j => (s.dinode j).isDir

/-- The inode a path starts from. -/
def startOf (s : Vol τ) (cwd : Fin NINODE) (path : List UInt8) : ℕ :=
  if path.headD 0 = slash then ROOTINO else s.num cwd

/-- Where `namex` is to end. -/
def target (s : Vol τ) (ents : ℕ → List Dirent) (find_parent : Bool) (i : ℕ)
    (qs : List (List UInt8)) : Option ℕ :=
  if find_parent then parentOf s ents i qs else walk s ents i qs

section Target

variable {s : Vol τ} {ents : ℕ → List Dirent} {i : ℕ}

theorem parentOf_cons {q : List UInt8} {qs : List (List UInt8)} (hqs : qs ≠ []) :
    parentOf s ents i (q :: qs) = if (s.dinode i).isDir then
      (lookupIn (ents i) q).bind fun de => parentOf s ents de.inum.toNat qs else none := by
  simp only [parentOf, reduceCtorEq, if_false, hqs, dropLast_cons_of_ne_nil hqs, walk]
  split
  · cases lookupIn (ents i) q <;> rfl
  · rfl

theorem target_nil (b : Bool) : target s ents b i [] = if b then none else some i := by
  cases b <;> rfl

/-- A file has no elements below it. -/
theorem target_file (h : (s.dinode i).isDir = false) (b : Bool) (q : List UInt8)
    (qs : List (List UInt8)) : target s ents b i (q :: qs) = none := by
  cases b with
  | false => simp [target, walk, h]
  | true =>
    by_cases hqs : qs = []
    · simp [target, parentOf, walk, hqs, h]
    · simp [target, parentOf_cons hqs, h]

theorem target_last (h : (s.dinode i).isDir = true) (q : List UInt8) :
    target s ents true i [q] = some i := by
  simp [target, parentOf, walk, h]

theorem target_step (h : (s.dinode i).isDir = true) {b : Bool} {q : List UInt8}
    {qs : List (List UInt8)} (hb : ¬(b = true ∧ qs = [])) : target s ents b i (q :: qs) =
      (lookupIn (ents i) q).bind fun de => target s ents b de.inum.toNat qs := by
  cases b with
  | false => simp [target, walk, h]
  | true => simp [target, parentOf_cons fun he => hb ⟨rfl, he⟩, h]

end Target

/-! ## References held for a while -/

/-- The inode cache while somebody holds `held jp` references more to each entry than there
were in `s`, and the locks are `lk`.  An entry in use before is for the same inode; only
inodes read from the disk have been added. -/
structure Visiting (s : Vol τ) (held : Fin NINODE → ℕ) (lk : Fin NINODE → Option τ) (t : Vol τ) :
    Prop where
  /-- No block changes. -/
  blk : t.blk = s.blk
  /-- The superblock stays. -/
  sb : t.sb = s.sb
  /-- No buffer is held on to. -/
  idle : t.held = s.held
  /-- The references. -/
  ref : ∀ jp, (t.inode jp).ref = (s.inode jp).ref + held jp
  /-- The locks. -/
  lock : ∀ jp, (t.inode jp).lock = lk jp
  /-- No two entries in use are for one inode. -/
  slots : t.Distinct
  /-- The cache holds inodes of the volume. -/
  inums : ∀ jp, 0 < (t.inode jp).ref → t.num jp < s.sb.ninodes
  /-- An entry in use stays for its inode, and keeps a valid copy. -/
  live : ∀ jp, 0 < (s.inode jp).ref → t.num jp = s.num jp ∧
    ((s.inode jp).valid = true → (t.inode jp).valid = true ∧ (t.inode jp).d = (s.inode jp).d)
  /-- A copy that was not there is as on disk. -/
  clean : ∀ jp, t.Loaded jp → s.Loaded jp ∨ (t.inode jp).d = s.disk (t.num jp)

theorem num_modInode {t : Vol τ} {ip : Fin NINODE} {f : Inode τ → Inode τ}
    (h : (f (t.inode ip)).inum = t.num ip) (jp : Fin NINODE) :
    (t.modInode ip f).num jp = t.num jp := by
  by_cases hj : jp = ip
  · subst hj
    rw [num, inode_modInode_self, h]
  · rw [num, inode_modInode_of_ne hj]

/-- `iget` leaves an entry in use for its inode. -/
theorem Got.num_of_pos {t t' : Vol τ} {i : ℕ} {ip jp : Fin NINODE} (hg : Got i ip t t')
    (hr : 0 < (t.inode jp).ref) : t'.num jp = t.num jp := by
  by_cases hj : jp = ip
  · subst hj
    rw [Vol.num, (hg.hit hr).2]
  · rw [Vol.num, hg.of_ne hj]

namespace Visiting

variable {s t t' : Vol τ} {held : Fin NINODE → ℕ} {lk : Fin NINODE → Option τ} {ip : Fin NINODE}
  {me : τ}

theorem refl (hs : Sound s) : Visiting s (fun _ => 0) (fun jp => (s.inode jp).lock) s where
  blk := rfl
  sb := rfl
  idle := rfl
  ref _ := rfl
  lock _ := rfl
  slots := hs.slots
  inums := hs.inums
  live _ _ := ⟨rfl, fun h => ⟨h, rfl⟩⟩
  clean _ h := Or.inl h

/-- An entry that was in use still is. -/
theorem pos (h : Visiting s held lk t) {jp : Fin NINODE} (hr : 0 < (s.inode jp).ref) :
    0 < (t.inode jp).ref := by
  rw [h.ref]
  omega

/-- If an inode's entry had no valid copy, there was none. -/
theorem dinode_of_not_loaded (h : Visiting s held lk t) (hr : 0 < (t.inode ip).ref)
    (hl : ¬s.Loaded ip) : s.dinode (t.num ip) = s.disk (t.num ip) := by
  have hnone : s.cached (t.num ip) = none := by
    refine cached_eq_none fun kp hk he => hl ?_
    have hkp := h.slots kp ip (h.pos hk.1) hr ((h.live kp hk.1).1.trans he)
    exact hkp ▸ hk
  rw [dinode, hnone]

/-- **No inode changes.** -/
theorem dinode (h : Visiting s held lk t) (hs : s.Distinct) (i : ℕ) :
    t.dinode i = s.dinode i := by
  by_cases hc : ∃ jp, t.Loaded jp ∧ t.num jp = i
  · obtain ⟨jp, hj, rfl⟩ := hc
    rw [h.slots.dinode_num hj]
    by_cases hl : s.Loaded jp
    · obtain ⟨hnum, hd⟩ := h.live jp hl.1
      rw [hnum, hs.dinode_num hl, (hd hl.2).2]
    · rw [h.dinode_of_not_loaded hj.1 hl]
      exact (h.clean jp hj).resolve_left hl
  · have ht : t.cached i = none := cached_eq_none fun jp hj he => hc ⟨jp, hj, he⟩
    have hs' : s.cached i = none := by
      refine cached_eq_none fun jp hj he => hc ⟨jp, ⟨h.pos hj.1, ?_⟩, ?_⟩
      · exact ((h.live jp hj.1).2 hj.2).1
      · exact (h.live jp hj.1).1.trans he
    rw [Vol.dinode, Vol.dinode, ht, hs', disk, disk, h.blk, h.sb]

theorem sound (h : Visiting s held lk t) (hs : Sound s) : Sound t :=
  hs.of_dinode h.blk h.sb (fun i _ => h.dinode hs.slots i) h.slots h.inums

theorem change (h : Visiting s held lk t) (ip : Fin NINODE) {f : Inode τ → Inode τ} {n : ℕ}
    (hslots : (t.modInode ip f).Distinct)
    (href : (f (t.inode ip)).ref = (s.inode ip).ref + n)
    (hinum : 0 < (f (t.inode ip)).ref → (f (t.inode ip)).inum < s.sb.ninodes)
    (hlive : 0 < (s.inode ip).ref → (f (t.inode ip)).inum = t.num ip ∧
      ((t.inode ip).valid = true → (f (t.inode ip)).valid = true ∧
        (f (t.inode ip)).d = (t.inode ip).d))
    (hclean : 0 < (f (t.inode ip)).ref → (f (t.inode ip)).valid = true →
      s.Loaded ip ∨ (f (t.inode ip)).d = s.disk (f (t.inode ip)).inum) :
    Visiting s (update held ip n) (update lk ip (f (t.inode ip)).lock) (t.modInode ip f) where
  blk := h.blk
  sb := h.sb
  idle := h.idle
  slots := hslots
  ref jp := by
    by_cases hj : jp = ip
    · subst hj
      rw [inode_modInode_self, update_self, href]
    · rw [inode_modInode_of_ne hj, update_of_ne hj, h.ref]
  lock jp := by
    by_cases hj : jp = ip
    · subst hj
      rw [inode_modInode_self, update_self]
    · rw [inode_modInode_of_ne hj, update_of_ne hj, h.lock]
  inums jp := by
    by_cases hj : jp = ip
    · subst hj
      rw [num, inode_modInode_self]
      exact hinum
    · rw [num, inode_modInode_of_ne hj]
      exact h.inums jp
  live jp hr := by
    obtain ⟨hnum, hd⟩ := h.live jp hr
    by_cases hj : jp = ip
    · subst hj
      rw [num, inode_modInode_self, ← hnum]
      refine ⟨(hlive hr).1, fun hv => ?_⟩
      obtain ⟨hv', hd'⟩ := (hlive hr).2 (hd hv).1
      exact ⟨hv', hd'.trans (hd hv).2⟩
    · rw [num, inode_modInode_of_ne hj]
      exact ⟨hnum, hd⟩
  clean jp := by
    by_cases hj : jp = ip
    · subst hj
      rw [Loaded, num, inode_modInode_self]
      exact fun hl => hclean hl.1 hl.2
    · rw [Loaded, num, inode_modInode_of_ne hj]
      exact h.clean jp

/-- One change that leaves the inode number and the copy alone. -/
theorem keep (h : Visiting s held lk t) {f : Inode τ → Inode τ} {n : ℕ}
    (hr : 0 < (t.inode ip).ref) (href : (f (t.inode ip)).ref = (s.inode ip).ref + n)
    (hnum : (f (t.inode ip)).inum = t.num ip) (hv : (f (t.inode ip)).valid = (t.inode ip).valid)
    (hd : (f (t.inode ip)).d = (t.inode ip).d) :
    Visiting s (update held ip n) (update lk ip (f (t.inode ip)).lock) (t.modInode ip f) := by
  apply h.change ip (h.slots.modInode (fun _ => hr) hnum) href
  · intro _
    rw [hnum]
    exact h.inums ip hr
  · intro _
    exact ⟨hnum, fun hv' => ⟨hv.trans hv', hd⟩⟩
  · intro _ hv'
    rw [hd, hnum]
    exact h.clean ip ⟨hr, hv.symm.trans hv'⟩

theorem got (h : Visiting s held lk t) {i : ℕ} (hg : Got i ip t t') (hi : i < s.sb.ninodes) :
    Visiting s (update held ip (held ip + 1)) lk t' := by
  have hlk : update lk ip (t'.inode ip).lock = lk := by
    rw [hg.lock, h.lock, update_eq_self]
  have hslots := hg.distinct h.slots
  have hnum : (t'.inode ip).inum = i := hg.num
  have hc : Visiting s (update held ip (held ip + 1))
      (update lk ip (t'.inode ip).lock) (t.modInode ip fun _ => t'.inode ip) := by
    rw [hg.only] at hslots
    apply h.change ip (f := fun _ => t'.inode ip) hslots
    · rcases Nat.eq_zero_or_pos (t.inode ip).ref with h0 | h0
      · have := h.ref ip
        rw [(hg.miss h0).2]
        change 1 = _
        omega
      · rw [(hg.hit h0).2]
        change (t.inode ip).ref + 1 = _
        rw [h.ref]
        omega
    · intro _
      rw [hnum]
      exact hi
    · intro hr
      obtain ⟨hn, hin⟩ := hg.hit (h.pos hr)
      rw [hin]
      exact ⟨rfl, fun hv => ⟨hv, rfl⟩⟩
    · intro _ hv
      rcases Nat.eq_zero_or_pos (t.inode ip).ref with h0 | h0
      · rw [(hg.miss h0).2] at hv
        exact Bool.noConfusion hv
      · rw [(hg.hit h0).2] at hv ⊢
        exact h.clean ip ⟨h0, hv⟩
  rw [hlk, ← hg.only] at hc
  exact hc

theorem locked (h : Visiting s held lk t) (hs : s.Distinct) (hr : 0 < (t.inode ip).ref) (me : τ) :
    Visiting s held (update lk ip (some me)) (t.locked me ip) := by
  have hc := h.change ip
    (f := fun x => { x with lock := some me, valid := true, d := t.dinode (t.num ip) })
    (n := held ip) (h.slots.modInode (fun _ => hr) rfl) (h.ref ip) (fun _ => h.inums ip hr)
    (fun _ => ⟨rfl, fun hv => ⟨rfl, h.slots.dinode_num ⟨hr, hv⟩⟩⟩) (fun _ _ => by
      by_cases hl : s.Loaded ip
      · exact .inl hl
      · right
        change t.dinode (t.num ip) = s.disk (t.num ip)
        rw [h.dinode hs, h.dinode_of_not_loaded hr hl])
  rw [update_eq_self] at hc
  exact hc

theorem unlocked (h : Visiting s held lk t) (hr : 0 < (t.inode ip).ref) :
    Visiting s held (update lk ip none) (t.unlocked ip) := by
  have hc := h.keep (f := fun x => { x with lock := none }) hr (h.ref ip) rfl rfl rfl
  rw [update_eq_self] at hc
  exact hc

theorem dup (h : Visiting s held lk t) (hr : 0 < (t.inode ip).ref) :
    Visiting s (update held ip (held ip + 1)) lk
      (t.modInode ip fun x => { x with ref := x.ref + 1 }) := by
  have hc := h.keep (f := fun x => { x with ref := x.ref + 1 }) (n := held ip + 1) hr
    (congrArg (· + 1) (h.ref ip)) rfl rfl rfl
  rw [h.lock, update_eq_self] at hc
  exact hc

theorem drop (h : Visiting s held lk t) (hheld : 0 < held ip) :
    Visiting s (update held ip (held ip - 1)) lk
      (t.modInode ip fun x => { x with ref := x.ref - 1 }) := by
  have href := h.ref ip
  have hc := h.keep (f := fun x => { x with ref := x.ref - 1 }) (n := held ip - 1) (by omega)
    (show (t.inode ip).ref - 1 = _ by omega) rfl rfl rfl
  rw [h.lock, update_eq_self] at hc
  exact hc

/-- `iput` of a reference held does not free the inode. -/
theorem wp_iput (h : Visiting s held lk t) (hs : Sound s) (hheld : 0 < held ip)
    (hk : (s.dinode (t.num ip)).nlink ≠ 0 ∨ ∃ jp, 0 < (s.inode jp).ref ∧ s.num jp = t.num ip)
    {Q : Unit → Vol τ → Prop}
    (hQ : Q () (t.modInode ip fun x => { x with ref := x.ref - 1 })) :
    (iput me ip).wp noPanic Q t := by
  refine Dir.wp_iput_drop ?_ hQ
  rintro ⟨h1, hv, hn⟩
  have href := h.ref ip
  have hpos : 0 < (t.inode ip).ref := by omega
  rcases hk with hlink | ⟨jp, hj, he⟩
  · rw [← h.dinode hs.slots, h.slots.dinode_num ⟨hpos, hv⟩] at hlink
    exact hlink hn
  · -- somebody else's reference is to the same entry
    have hjp := h.slots jp ip (h.pos hj) hpos ((h.live jp hj).1.trans he)
    subst hjp
    omega

/-- **`iunlockput` gives back the lock and a reference.** -/
theorem wp_iunlockput
    (h : Visiting s held (update (fun _ => none) ip (some me)) t) (hs : Sound s)
    (hheld : 0 < held ip)
    (hk : (s.dinode (t.num ip)).nlink ≠ 0 ∨ ∃ jp, 0 < (s.inode jp).ref ∧ s.num jp = t.num ip)
    {Q : Unit → Vol τ → Prop}
    (hQ : ∀ t', Visiting s (update held ip (held ip - 1)) (fun _ => none) t' →
      (∀ jp, t'.num jp = t.num jp) → Q () t') :
    (iunlockput me ip).wp noPanic Q t := by
  have hpos : 0 < (t.inode ip).ref := by
    rw [h.ref]
    omega
  have hlock : (t.inode ip).lock = some me := by rw [h.lock, update_self]
  have hu := h.unlocked hpos
  rw [update_idem, update_eq_self_iff.2 rfl] at hu
  have hnum : ∀ jp, (t.unlocked ip).num jp = t.num jp := num_modInode rfl
  simp only [iunlockput, bind_eq, wp_bind]
  refine wp_iunlock hpos hlock (hu.wp_iput hs hheld ?_ (hQ _ (hu.drop hheld) fun jp => ?_))
  · rw [hnum]
    exact hk
  · rw [num_modInode rfl, hnum]

end Visiting

/-! ## Following a path -/

/-- The one reference handed to the caller. -/
def handed (r : Option (Fin NINODE)) : Fin NINODE → ℕ := fun jp => if r = some jp then 1 else 0

theorem handed_self (ip : Fin NINODE) : handed (some ip) ip = 1 := if_pos rfl

theorem update_handed (ip : Fin NINODE) :
    update (handed (some ip)) ip (handed (some ip) ip - 1) = handed none := by
  funext jp
  by_cases hj : jp = ip
  · subst hj
    simp [handed]
  · simp [handed, hj, Ne.symm hj]

/-- From one entry to the next, which may be the same. -/
theorem update_update_handed (ip jp : Fin NINODE) {held : Fin NINODE → ℕ}
    (h : held = update (handed (some ip)) jp (handed (some ip) jp + 1)) :
    update held ip (held ip - 1) = handed (some jp) := by
  subst h
  funext kp
  by_cases hj : jp = ip
  · subst hj
    by_cases hk : kp = jp
    · subst hk
      simp [handed]
    · simp [handed, hk, Ne.symm hk]
  · by_cases hk : kp = ip
    · subst hk
      simp [handed, Ne.symm hj, hj]
    · by_cases hkj : kp = jp
      · subst hkj
        simp [handed, hk, Ne.symm hk]
      · simp [handed, hk, hkj, Ne.symm hk, Ne.symm hkj]

/-- With two free entries at first, one is left. -/
theorem Visiting.exists_free {s t : Vol τ} {ip : Fin NINODE} {lk : Fin NINODE → Option τ}
    (h : Visiting s (handed (some ip)) lk t)
    (hslots : ∃ jp kp, jp ≠ kp ∧ (s.inode jp).ref = 0 ∧ (s.inode kp).ref = 0) :
    ∃ jp, (t.inode jp).ref = 0 := by
  have hother : ∀ jp, jp ≠ ip → (s.inode jp).ref = 0 → (t.inode jp).ref = 0 := by
    intro jp hj h0
    rw [h.ref, h0, handed, if_neg]
    rintro ⟨⟩
    exact hj rfl
  obtain ⟨jp, kp, hne, hj, hk⟩ := hslots
  by_cases hip : jp = ip
  · exact ⟨kp, hother kp (fun he => hne (hip.trans he.symm)) hk⟩
  · exact ⟨jp, hother jp hip hj⟩

/-- How `namex` ends. -/
structure Ends (s : Vol τ) (ents : ℕ → List Dirent) (b : Bool) (i : ℕ) (qs : List (List UInt8))
    (r : Option (Fin NINODE) × (ℕ → UInt8)) (t : Vol τ) : Prop where
  /-- The caller has the one reference, and no lock. -/
  balanced : Visiting s (handed r.1) (fun _ => none) t
  /-- It is to the inode the path leads to. -/
  inum : r.1.map t.num = target s ents b i qs
  /-- The buffer holds the last element. -/
  last : b = true → r.1.isSome → qs.getLast? = some (nameSlice r.2)

section Namex

variable {s t : Vol τ} {R : ℕ → Prop} {ents : ℕ → List Dirent} {me : τ} {D : Devsw τ}
  {ip cwd : Fin NINODE}

/-- A directory of the structure, once locked. -/
theorem Directories.dir (hdirs : Directories s R ents) (hs : Sound s)
    (hidle : ∀ x, s.held x = none) {held : Fin NINODE → ℕ} {lk : Fin NINODE → Option τ}
    (h : Visiting s held lk t) (hl : t.Loaded ip) (hR : R (t.num ip))
    (hdir : (s.dinode (t.num ip)).isDir = true) : Dir t ip (ents (t.num ip)) where
  sound := h.sound hs
  idle x := by
    rw [h.idle]
    exact hidle x
  loaded := hl
  itype := by
    rw [← h.slots.dinode_num hl, h.dinode hs.slots]
    exact eq_of_beq hdir
  holes k hk := by
    rw [h.dinode hs.slots] at hk
    rw [blockAt, refs_congr h.blk h.sb fun i _ => h.dinode hs.slots i]
    exact hdirs.holes _ hR hdir k hk
  content := by
    rw [content_congr h.blk h.sb (h.dinode hs.slots _)]
    exact hdirs.content _ hR hdir

/-- **The loop of `namex`.**  Each turn holds one reference and no lock. -/
theorem wp_namexLoop (hs : Sound s) (hdirs : Directories s R ents) (hidle : ∀ x, s.held x = none)
    (hslots : ∃ jp kp, jp ≠ kp ∧ (s.inode jp).ref = 0 ∧ (s.inode kp).ref = 0) (b : Bool)
    (fuel : ℕ) (path : List UInt8) (name : ℕ → UInt8) (ip : Fin NINODE) (t : Vol τ)
    (hpath : 0 ∉ path) (hfuel : path.length < fuel)
    (h : Visiting s (handed (some ip)) (fun _ => none) t) (hR : R (t.num ip)) :
    (namexLoop D me b fuel path name ip).wp noPanic
      (Ends s ents b (t.num ip) (components path)) t := by
  induction fuel generalizing path name ip t with
  | zero => omega
  | succ fuel ih =>
    have hone := handed_self ip
    have hpos : 0 < (t.inode ip).ref := by
      rw [h.ref, hone]
      omega
    have hkept := hdirs.kept _ hR
    rw [namexLoop]
    cases hk : skipelem path name with
    | none =>
      rw [(skipelem_none hpath name).1 hk]
      cases b with
      | false => exact ⟨h, by rw [target_nil]; rfl, fun hb => Bool.noConfusion hb⟩
      | true =>
        have hdrop : Visiting s (update (handed (some ip)) ip (handed (some ip) ip - 1))
            _ _ := h.drop (by omega)
        rw [update_handed] at hdrop
        simp only [if_true, bind_eq, wp_bind]
        exact h.wp_iput hs (by omega) hkept ⟨hdrop, rfl, fun _ hr => Bool.noConfusion hr⟩
    | some r =>
      obtain ⟨rest, name'⟩ := r
      obtain ⟨hcomp, hrest, hshort, hend⟩ := skipelem_some hpath hk
      rw [hcomp]
      -- the inode is locked
      have hlocked := h.locked hs.slots hpos me
      have hl : (t.locked me ip).Loaded ip := ((h.sound hs).locked hpos me).2.2
      have hnum : ∀ jp, (t.locked me ip).num jp = t.num jp := num_modInode rfl
      have hd : ((t.locked me ip).inode ip).d = s.dinode (t.num ip) := by
        rw [inode_locked, ← h.dinode hs.slots]
      rw [← hnum ip] at hkept
      simp only [bind_eq, wp_bind]
      refine wp_ilock (h.sound hs) hpos (h.lock ip) (by rw [h.idle]; exact hidle _)
        (Or.inl (by rw [h.dinode hs.slots]; exact (hdirs.used _ hR).2)) fun _ => ?_
      rw [wp_look, hd]
      cases hdir : (s.dinode (t.num ip)).isDir with
      | false =>
        simp only [if_true, wp_bind]
        refine hlocked.wp_iunlockput hs (by omega) hkept fun t' ht' _ => ?_
        rw [update_handed] at ht'
        exact ⟨ht', by rw [target_file hdir]; rfl, fun _ hr => Bool.noConfusion hr⟩
      | true =>
        simp only [Bool.true_eq_false, if_false]
        by_cases hstop : b = true ∧ rest.headD 0 = 0
        · -- one level early
          rw [if_pos hstop, hend.1 hstop.2, hstop.1]
          have hu := hlocked.unlocked hl.1
          rw [update_idem, update_eq_self_iff.2 rfl] at hu
          simp only [wp_bind]
          refine wp_iunlock hl.1 (by rw [hlocked.lock, update_self]) ⟨hu, ?_, fun _ _ => rfl⟩
          rw [target_last hdir]
          change some ((t.locked me ip).unlocked ip |>.num ip) = _
          rw [show ((t.locked me ip).unlocked ip).num ip = (t.locked me ip).num ip from
            num_modInode rfl ip, hnum]
        · rw [if_neg hstop]
          rw [hend] at hstop
          have hDir := hdirs.dir hs hidle hlocked hl (by rw [hnum]; exact hR)
            (by rw [hnum]; exact hdir)
          rw [hnum] at hDir
          have hslot := hlocked.exists_free hslots
          simp only [wp_bind]
          refine wp_mono (hDir.wp_dirlookup hslot name') fun r u hr => ?_
          cases hlook : lookupIn (ents (t.num ip)) (nameSlice name') with
          | none =>
            rw [hlook] at hr
            obtain ⟨rfl, rfl⟩ := hr
            refine hlocked.wp_iunlockput hs (by omega) hkept fun t' ht' _ => ?_
            rw [update_handed] at ht'
            refine ⟨ht', ?_, fun _ hr => Bool.noConfusion hr⟩
            rw [target_step hdir hstop, hlook]
            rfl
          | some de =>
            rw [hlook] at hr
            obtain ⟨jp, off, rfl, hg⟩ := hr
            have hde : de.Starts (nameSlice name') := by simpa using find?_some hlook
            have hnext := hdirs.closed _ hR hdir de (mem_of_find?_eq_some hlook) hde.1
            have hgot := hlocked.got hg (hdirs.used _ hnext).1
            rw [← hg.num_of_pos hl.1] at hkept
            refine hgot.wp_iunlockput hs ?_ hkept fun t' ht' hn => ?_
            · by_cases hj : ip = jp
              · rw [hj, update_self]
                omega
              · rw [update_of_ne hj]
                omega
            · rw [update_update_handed ip jp rfl] at ht'
              have hjp : t'.num jp = de.inum.toNat := (hn jp).trans hg.num
              have hih := ih rest name' jp t' hrest (by omega) ht' (hjp.symm ▸ hnext)
              rw [hjp] at hih
              refine wp_mono hih fun r u' he => ⟨he.balanced, ?_, fun hb hr => ?_⟩
              · rw [he.inum, target_step hdir hstop, hlook]
                rfl
              · rw [getLast?_cons, he.last hb hr]
                rfl

/-- **`namex` follows the path.** -/
theorem wp_namex (hs : Sound s) (hdirs : Directories s R ents) (hidle : ∀ x, s.held x = none)
    (hfree : ∀ jp, (s.inode jp).lock = none)
    (hslots : ∃ jp kp, jp ≠ kp ∧ (s.inode jp).ref = 0 ∧ (s.inode kp).ref = 0)
    (hcwd : 0 < (s.inode cwd).ref) {path : List UInt8} (hpath : 0 ∉ path)
    (hstart : R (startOf s cwd path)) (b : Bool) (name : ℕ → UInt8) :
    (namex D me cwd path b name).wp noPanic
      (Ends s ents b (startOf s cwd path) (components path)) s := by
  have hrefl := Visiting.refl hs
  rw [show (fun jp => (s.inode jp).lock) = fun _ => none from funext hfree] at hrefl
  have hone : ∀ ip : Fin NINODE, update (fun _ => 0) ip (0 + 1) = handed (some ip) := by
    intro ip
    funext jp
    by_cases hj : jp = ip
    · subst hj
      simp [handed]
    · simp [handed, hj, Ne.symm hj]
  simp only [namex, bind_eq]
  by_cases habs : path.headD 0 = slash
  · rw [startOf, if_pos habs] at hstart ⊢
    rw [if_pos habs, wp_bind]
    have hslot : ∃ jp, (s.inode jp).ref = 0 := by
      obtain ⟨jp, -, -, hj, -⟩ := hslots
      exact ⟨jp, hj⟩
    refine wp_iget ROOTINO (Or.inr (Or.inl hslot)) fun ip t hg => ?_
    have ht := hrefl.got hg (hdirs.used _ hstart).1
    rw [hone] at ht
    have hR : R (t.num ip) := by
      rw [hg.num]
      exact hstart
    rw [← hg.num]
    exact wp_namexLoop hs hdirs hidle hslots b _ path name ip t hpath (Nat.lt_succ_self _) ht hR
  · rw [startOf, if_neg habs] at hstart ⊢
    rw [if_neg habs]
    have ht := hrefl.dup hcwd
    rw [hone] at ht
    have hnum : (s.modInode cwd fun x => { x with ref := x.ref + 1 }).num cwd = s.num cwd :=
      num_modInode rfl cwd
    simp only [idup, bind_eq, wp_bind, wp_change]
    rw [← hnum] at hstart ⊢
    exact wp_namexLoop hs hdirs hidle hslots b _ path name cwd _ hpath
      (Nat.lt_succ_self _) ht hstart

end Namex

/-- Nothing has changed but one reference more to the entry returned. -/
structure Balanced (s : Vol τ) (r : Option (Fin NINODE)) (t : Vol τ) : Prop where
  /-- The references. -/
  ref : ∀ jp, (t.inode jp).ref = (s.inode jp).ref + if r = some jp then 1 else 0
  /-- An entry in use is for the same inode. -/
  inum : ∀ jp, 0 < (s.inode jp).ref → t.num jp = s.num jp
  /-- No lock is held. -/
  lock : ∀ jp, (t.inode jp).lock = none
  /-- The inodes are the same. -/
  dinode : ∀ i, t.dinode i = s.dinode i
  /-- So are the blocks. -/
  blk : t.blk = s.blk

theorem Visiting.balanced {s t : Vol τ} {r : Option (Fin NINODE)}
    (h : Visiting s (handed r) (fun _ => none) t) (hs : Sound s) : Balanced s r t where
  ref := h.ref
  inum jp hr := (h.live jp hr).1
  lock := h.lock
  dinode := h.dinode hs.slots
  blk := h.blk

/-- Some inode before an element is not a directory, or does not have the name. -/
def Stuck (s : Vol τ) (ents : ℕ → List Dirent) (i : ℕ) (qs : List (List UInt8)) : Prop :=
  ∃ pre q post j, qs = pre ++ q :: post ∧ walk s ents i pre = some j ∧
    ((s.dinode j).isDir = false ∨ lookupIn (ents j) q = none)

/-- A walk ends nowhere exactly if it is stuck at one of the elements. -/
theorem walk_eq_none_iff {s : Vol τ} {ents : ℕ → List Dirent} (qs : List (List UInt8)) (i : ℕ) :
    walk s ents i qs = none ↔ Stuck s ents i qs := by
  induction qs generalizing i with
  | nil =>
    constructor
    · intro h
      cases h
    · rintro ⟨pre, q, post, j, hqs, -⟩
      simp at hqs
  | cons q qs ih =>
    constructor
    · intro h
      rw [walk] at h
      split_ifs at h with hdir
      · cases hl : lookupIn (ents i) q with
        | none => exact ⟨[], q, qs, i, rfl, rfl, Or.inr hl⟩
        | some de =>
          rw [hl] at h
          obtain ⟨pre, q', post, j, rfl, hw, hj⟩ := (ih de.inum.toNat).1 h
          refine ⟨q :: pre, q', post, j, rfl, ?_, hj⟩
          rw [walk, if_pos hdir, hl]
          exact hw
      · exact ⟨[], q, qs, i, rfl, rfl, Or.inl (Bool.eq_false_iff.2 hdir)⟩
    · rintro ⟨pre, q', post, j, hqs, hw, hj⟩
      rw [walk]
      cases pre with
      | nil =>
        obtain ⟨rfl, rfl⟩ := List.cons.inj hqs
        obtain rfl := Option.some.inj hw
        rcases hj with hj | hj
        · simp [hj]
        · simp [hj]
      | cons p pre =>
        obtain ⟨rfl, rfl⟩ := List.cons.inj hqs
        rw [walk] at hw
        split_ifs at hw ⊢ with hdir
        · obtain ⟨de, hl, hw⟩ := Option.bind_eq_some_iff.1 hw
          rw [hl]
          exact (ih de.inum.toNat).2 ⟨pre, q', post, j, rfl, hw, hj⟩

theorem takeWhile_congr {p q : ℕ → Bool} {l : List ℕ} (h : ∀ i ∈ l, p i = q i) :
    l.takeWhile p = l.takeWhile q := by
  induction l with
  | nil => rfl
  | cons i l ih =>
    rw [takeWhile_cons, takeWhile_cons, h i mem_cons_self,
      ih fun j hj => h j (mem_cons_of_mem i hj)]

/-- A name is within its first `DIRSIZ` bytes. -/
theorem nameSlice_congr {name name' : ℕ → UInt8} (h : ∀ i, i < DIRSIZ → name i = name' i) :
    nameSlice name = nameSlice name' := by
  have hlen : nameLen name = nameLen name' := by
    rw [nameLen, nameLen, takeWhile_congr]
    intro i hi
    rw [h i (mem_range.1 hi)]
  rw [nameSlice, nameSlice, hlen]
  refine map_congr_left fun i hi => h i ?_
  have := nameLen_le name'
  have := mem_range.1 hi
  omega

/-- **`namei` and `nameiparent` follow the elements of the path and balance the references.**
From a consistent volume between calls, with a directory structure that contains the inode
the path starts from and room for two more inodes in the cache. -/
theorem namei_nameiparent (D : Devsw τ) (me : τ) {s : Vol τ} (hs : Sound s)
    {R : ℕ → Prop} {ents : ℕ → List Dirent} (hdirs : Directories s R ents)
    (hidle : ∀ x, s.held x = none) (hfree : ∀ jp, (s.inode jp).lock = none)
    (hslots : ∃ jp kp, jp ≠ kp ∧ (s.inode jp).ref = 0 ∧ (s.inode kp).ref = 0)
    {cwd : Fin NINODE} (hcwd : 0 < (s.inode cwd).ref) {path : List UInt8} (hpath : 0 ∉ path)
    (hstart : R (startOf s cwd path)) :
    (∃ r t, (namei D me cwd path).run s = .done r t ∧ Balanced s r t ∧
      r.map t.num = walk s ents (startOf s cwd path) (components path) ∧
      (r = none ↔ Stuck s ents (startOf s cwd path) (components path))) ∧
    ∀ name, ∃ r name' t, (nameiparent D me cwd path name).run s = .done (r, name') t ∧
      Balanced s r t ∧ r.map t.num = parentOf s ents (startOf s cwd path) (components path) ∧
      (r.isSome → (components path).getLast? = some (nameSlice name')) ∧
      (r = none → name' = name) := by
  have hnamex : ∀ b, (namex D me cwd path b fun _ => 0).wp noPanic
      (Ends s ents b (startOf s cwd path) (components path)) s :=
    fun b => wp_namex hs hdirs hidle hfree hslots hcwd hpath hstart b _
  constructor
  · have hwp : (namei D me cwd path).wp noPanic (fun r t => Balanced s r t ∧
        r.map t.num = walk s ents (startOf s cwd path) (components path)) s := by
      simp only [namei, bind_eq, wp_bind]
      exact wp_mono (hnamex false) fun r t h => ⟨h.balanced.balanced hs, h.inum⟩
    obtain ⟨r, t, hrun, hbal, hr⟩ := (wp_noPanic_iff _).1 hwp
    refine ⟨r, t, hrun, hbal, hr, ?_⟩
    rw [← walk_eq_none_iff, ← hr, Option.map_eq_none_iff]
  · intro name
    have hwp : (nameiparent D me cwd path name).wp noPanic (fun r t => Balanced s r.1 t ∧
        r.1.map t.num = parentOf s ents (startOf s cwd path) (components path) ∧
        (r.1.isSome → (components path).getLast? = some (nameSlice r.2)) ∧
        (r.1 = none → r.2 = name)) s := by
      simp only [nameiparent, bind_eq, wp_bind]
      refine wp_mono (hnamex true) fun r t h => ⟨h.balanced.balanced hs, h.inum, ?_, ?_⟩
      · intro hr
        change r.1.isSome = true at hr
        rw [h.last rfl hr, if_pos hr]
        exact congrArg some (nameSlice_congr fun i hi => (if_pos hi).symm)
      · intro hr
        change r.1 = none at hr
        rw [hr]
        rfl
    obtain ⟨⟨r, name'⟩, t, hrun, h⟩ := (wp_noPanic_iff _).1 hwp
    exact ⟨r, name', t, hrun, h⟩

/-- `/./ab` in an image with the file `ab`. -/
theorem namei_nameiparent_ab : ∃ (s t : Vol Unit) (ip : Fin NINODE),
    (namei noDev () 0 [47, 46, 47, 97, 98]).run s = .done (some ip) t ∧ t.num ip = 2 ∧
      Balanced s (some ip) t := by
  obtain ⟨m, hb, -⟩ := built_empty [97, 98]
  obtain ⟨hs, hrefs, hl, hnum, hd⟩ := sound_withInode hb.shows.sound (fun _ => rfl)
    (hb.shows.lt_ninodes (show 1 < 200 by decide))
  obtain ⟨data, -, hfile⟩ := hb.file 0 [97, 98] rfl
  rw [Nat.zero_add] at hfile
  have hroot : ((withInode m.vol 1).dinode 1).isDir = true := by
    rw [hd, Dinode.isDir, hb.root.itype]
    rfl
  have hnot : ((withInode m.vol 1).dinode 2).isDir = false := by
    rw [hd, Dinode.isDir, hfile.itype]
    rfl
  let ents : ℕ → List Dirent := fun _ => entries [[97, 98]]
  have hdirs : Directories (withInode m.vol 1) (fun i => i = 1 ∨ i = 2) ents := by
    constructor
    · rintro i (rfl | rfl)
      · refine ⟨hb.shows.lt_ninodes (by decide), ?_⟩
        rw [hd, hb.root.itype]
        decide
      · refine ⟨hb.shows.lt_ninodes (by decide), ?_⟩
        rw [hd, hfile.itype]
        decide
    · rintro i (rfl | rfl)
      · left
        rw [hd, hb.root.nlink]
        decide
      · left
        rw [hd, hfile.nlink]
        decide
    · rintro i (rfl | rfl) hdir k hk
      · rw [hd] at hk
        rw [blockAt, hrefs]
        exact hb.root.holes k hk
      · rw [hnot] at hdir
        cases hdir
    · rintro i (rfl | rfl) hdir
      · have hcontent : (withInode m.vol 1).content 1 = (m.vol).content 1 :=
          content_congr rfl rfl (hd 1)
        rw [hcontent]
        exact hb.root.content
      · rw [hnot] at hdir
        cases hdir
    · rintro i - - de hde -
      have hall : ∀ de ∈ entries [[97, 98]], de.inum.toNat = 1 ∨ de.inum.toNat = 2 := by decide
      exact hall de hde
  have hpath : (0 : UInt8) ∉ [47, 46, 47, 97, 98] := by decide
  obtain ⟨⟨r, t, hrun, hbal, hr, -⟩, -⟩ := namei_nameiparent noDev () hs hdirs (fun _ => rfl)
    (fun jp => by
      by_cases hj : jp = 0
      · rw [hj, inode_withInode]
      · rw [withInode, inode_modInode_of_ne hj]
        rfl)
    ⟨1, 2, by decide, rfl, rfl⟩ hl.1 hpath (Or.inl rfl)
  have hwalk : walk (withInode m.vol 1) ents 1 [[46], [97, 98]] = some 2 := by
    have h1 : (lookupIn (entries [[97, 98]]) [46]).map (fun de => de.inum.toNat) = some 1 := by
      decide
    have h2 : (lookupIn (entries [[97, 98]]) [97, 98]).map (fun de => de.inum.toNat) = some 2 := by
      decide
    obtain ⟨de, hde, hi⟩ := Option.map_eq_some_iff.1 h1
    obtain ⟨de', hde', hi'⟩ := Option.map_eq_some_iff.1 h2
    simp [walk, ents, hroot, hde, hde', hi, hi']
  have hcomp : components [47, 46, 47, 97, 98] = [[46], [97, 98]] := by decide
  rw [hcomp] at hr
  obtain ⟨ip, rfl, hip⟩ := Option.map_eq_some_iff.1 (hr.trans hwalk)
  exact ⟨_, t, ip, hrun, hip, hbal⟩

end Vol

end Xv6.Fs
