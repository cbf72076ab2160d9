import Xv6.Fs.Owner

/-!
# What a crash leaves behind, and what recovery makes of it

A disk is *recoverable* to the contents `T` when its log header lists some blocks,
the log holds `T`'s version of each, and every other block outside the log already
is as in `T`.  An empty header makes that simply "the disk is `T`".  Installing the
log and clearing it keeps the disk recoverable to the same `T` at every single
write, so it does not matter how often recovery itself is cut short.

* `header_putHeader` — the header survives the trip to the disk and back.
* `Recoverable` — the disk holds `T`, in place or through its log.
* `install_phases`, `own_clear` — installing and clearing.
* `own_recover` — `recover_from_log` ends with `T` in place and an empty header.
-/

namespace Xv6.Fs

open Lib List Function

/-! ## The header block -/

/-- **The header survives the trip to the disk and back.** -/
theorem header_putHeader {l : List ℕ} (d : Block) (hlen : l.length ≤ LOGSIZE)
    (hl : ∀ b ∈ l, b < 2 ^ 32) : header (putHeader l d) = l := by
  have hlen : l.length ≤ 30 := hlen
  have hwords : BSIZE / 4 = 128 := rfl
  have hn : (putHeader l d).word 0 = l.length := by
    rw [putHeader, Block.word_putWords _ _ _ hl (by omega), if_neg (by omega),
      Block.word_setWord_self d (by omega) (by omega)]
  rw [header, hn]
  refine ext_getElem (by simp) fun j h1 h2 => ?_
  simp only [getElem_map, getElem_range]
  rw [putHeader, Block.word_putWords _ _ _ hl (by omega), if_pos (by omega), Nat.add_sub_cancel,
    getD_eq_getElem _ _ h2]

theorem header_eq_nil_iff (d : Block) : header d = [] ↔ d.word 0 = 0 := by
  simp [header]

theorem length_header (d : Block) : (header d).length = d.word 0 := by
  simp [header]

/-! ## Recoverable disks -/

/-- The blocks of the log area `[start, start + size)`. -/
def InLog (start size b : ℕ) : Prop := start ≤ b ∧ b < start + size

/-- Recovery from this disk, whose log header lists `l`, leads to `T`. -/
structure Recoverable (start size : ℕ) (T disk : ℕ → Block) (l : List ℕ) : Prop where
  head : header (disk start) = l
  fits : l.length < size
  short : l.length ≤ LOGSIZE
  home : ∀ b ∈ l, ¬ InLog start size b
  copies : ∀ j, j < l.length → disk (start + j + 1) = T (l.getD j 0)
  rest : ∀ b, ¬ InLog start size b → b ∉ l → disk b = T b

namespace Recoverable

variable {start size : ℕ} {T T' disk : ℕ → Block} {l : List ℕ}

/-- Only the contents outside the log matter. -/
theorem congr (h : Recoverable start size T disk l)
    (hT : ∀ b, ¬ InLog start size b → T b = T' b) : Recoverable start size T' disk l where
  head := h.head
  fits := h.fits
  short := h.short
  home := h.home
  copies j hj := by
    have hmem : l.getD j 0 ∈ l := by
      rw [getD_eq_getElem _ _ hj]
      exact getElem_mem hj
    rw [h.copies j hj, hT _ (h.home _ hmem)]
  rest b hb hbl := by rw [h.rest b hb hbl, hT b hb]

/-- With an empty header, recoverable means in place. -/
theorem of_empty (hsize : 0 < size) (hhead : header (disk start) = [])
    (hT : ∀ b, ¬ InLog start size b → disk b = T b) : Recoverable start size T disk [] where
  head := hhead
  fits := hsize
  short := Nat.zero_le _
  home := by simp
  copies := by simp
  rest b hb _ := hT b hb

/-- Putting a block outside the log to what it will be anyway. -/
theorem store_home (h : Recoverable start size T disk l) {b : ℕ} (hb : ¬ InLog start size b) :
    Recoverable start size T (update disk b (T b)) l := by
  have hne : ∀ c, InLog start size c → c ≠ b := fun c hc he => hb (he ▸ hc)
  have hpos := h.fits
  refine ⟨?_, h.fits, h.short, h.home, ?_, ?_⟩
  · rw [update_of_ne (hne start ⟨le_refl _, by omega⟩)]
    exact h.head
  · intro j hj
    rw [update_of_ne (hne _ ⟨by omega, by omega⟩)]
    exact h.copies j hj
  · intro c hc hcl
    by_cases hcb : c = b
    · subst hcb; rw [update_self]
    · rw [update_of_ne hcb]
      exact h.rest c hc hcl

end Recoverable

/-- A store to the root device, seen as a change of its blocks. -/
theorem storeAt_root (m : ℕ → ℕ → Block) (b : ℕ) (d : Block) :
    storeAt m ROOTDEV b d ROOTDEV = update (m ROOTDEV) b d := by
  simp [storeAt]

/-! ## Pinned blocks -/

/-- Only logged blocks from entry `k` on are pinned. -/
structure Pinned (lg : Log) (k : ℕ) (v : View) : Prop where
  log : v.log = lg
  pins : ∀ dev b, v.dirty dev b → dev = ROOTDEV ∧ ∃ j, k ≤ j ∧ j < lg.n ∧ b = lg.home j

/-- Every pinned block is a logged one. -/
def PinsLogged (v : View) : Prop := ∀ dev b, v.dirty dev b → dev = ROOTDEV ∧ b ∈ v.log.block

theorem Log.home_mem {lg : Log} {j : ℕ} (hj : j < lg.n) : lg.home j ∈ lg.block := by
  rw [Log.home, getD_eq_getElem _ _ hj]
  exact getElem_mem hj

theorem Log.exists_home {lg : Log} {b : ℕ} (hb : b ∈ lg.block) : ∃ j, j < lg.n ∧ b = lg.home j := by
  obtain ⟨j, hj, rfl⟩ := mem_iff_getElem.1 hb
  exact ⟨j, hj, by rw [Log.home, getD_eq_getElem _ _ hj]⟩

theorem Pinned.logged {lg : Log} {k : ℕ} {v : View} (h : Pinned lg k v) : PinsLogged v := by
  intro dev b hd
  obtain ⟨hdev, j, -, hj, rfl⟩ := h.pins dev b hd
  exact ⟨hdev, by rw [h.log]; exact Log.home_mem hj⟩

theorem PinsLogged.pinned {lg : Log} {v : View} (h : PinsLogged v) (hlog : v.log = lg) :
    Pinned lg 0 v := by
  refine ⟨hlog, fun dev b hd => ?_⟩
  obtain ⟨hdev, hb⟩ := h dev b hd
  obtain ⟨j, hj, rfl⟩ := Log.exists_home (hlog ▸ hb)
  exact ⟨hdev, j, Nat.zero_le j, hj, rfl⟩

/-- Writing a block out pins nothing new. -/
theorem Pinned.unpin {lg : Log} {k : ℕ} {v : View} (h : Pinned lg k v) (dev b : ℕ) :
    Pinned lg k (v.unpin dev b) :=
  ⟨h.log, fun dev' b' hd => h.pins dev' b' hd.1⟩

/-- Copying to the log leaves the pins as they are. -/
theorem pinned_writeLog (lg : Log) : CopyPhases PinsLogged lg Log.home Log.copyOf
    (fun _ => Pinned lg 0) (fun _ _ => Pinned lg 0) (fun _ => Pinned lg 0)
      (fun _ => Pinned lg 0) where
  log _ _ h := h.log
  read _ _ _ h := h
  modify _ _ _ _ h := ⟨h.log, h.pins⟩
  unpin _ _ _ h := h.unpin _ _
  flush _ _ _ h := ⟨h.log, h.pins⟩
  safeI _ _ h := h.logged
  safeM _ _ h := h.logged
  safeU _ _ h := h.logged

/-- Copying home unpins the blocks one by one. -/
theorem pinned_installTrans (lg : Log) : CopyPhases PinsLogged lg Log.copyOf Log.home
    (Pinned lg) (fun k _ => Pinned lg k) (Pinned lg) (fun k => Pinned lg (k + 1)) where
  log _ _ h := h.log
  read _ _ _ h := h
  modify _ _ _ _ h := ⟨h.log, h.pins⟩
  unpin k _ v h := by
    refine ⟨h.log, fun dev b hd => ?_⟩
    obtain ⟨hd, hne⟩ := hd
    obtain ⟨rfl, j, hkj, hj, rfl⟩ := h.pins dev b hd
    have hjk : j ≠ k := by
      rintro rfl
      exact hne rfl
    exact ⟨rfl, j, by omega, hj, rfl⟩
  flush _ _ _ h := ⟨h.log, h.pins⟩
  safeI _ _ h := h.logged
  safeM _ _ h := h.logged
  safeU _ _ h := h.logged

/-- Phases side by side: the second ones may be given up for good when `S` holds. -/
theorem CopyPhases.orElse {C C' S : View → Prop} {lg : Log} {src dst : Log → ℕ → ℕ}
    {P I : ℕ → View → Prop} {A D : ℕ → Block → View → Prop} {B M V U : ℕ → View → Prop}
    (hP : CopyPhases C lg src dst P A B V) (hI : CopyPhases C' lg src dst I D M U)
    (hS : ∀ v v', SameFrame v v' → S v → S v') :
    CopyPhases (fun v => C v ∧ (S v ∨ C' v)) lg src dst (fun k v => P k v ∧ (S v ∨ I k v))
      (fun k d v => A k d v ∧ (S v ∨ D k d v)) (fun k v => B k v ∧ (S v ∨ M k v))
      (fun k v => V k v ∧ (S v ∨ U k v)) where
  log k v h := hP.log k v h.1
  read k hk v h := ⟨hP.read k hk v h.1, h.2.imp_right (hI.read k hk v)⟩
  modify k hk v d h := ⟨hP.modify k hk v d h.1,
    h.2.imp (hS v _ (sameFrame_of_log rfl rfl rfl)) (hI.modify k hk v d)⟩
  unpin k hk v h := ⟨hP.unpin k hk v h.1,
    h.2.imp (hS v _ (sameFrame_of_log rfl rfl rfl)) (hI.unpin k hk v)⟩
  flush k hk v h := ⟨hP.flush k hk v h.1,
    h.2.imp (hS v _ (sameFrame_of_log rfl rfl rfl)) (hI.flush k hk v)⟩
  safeI k v h := ⟨hP.safeI k v h.1, h.2.imp_right (hI.safeI k v)⟩
  safeM k v h := ⟨hP.safeM k v h.1, h.2.imp_right (hI.safeM k v)⟩
  safeU k v h := ⟨hP.safeU k v h.1, h.2.imp_right (hI.safeU k v)⟩

/-! ## Installing -/

section Install

variable {K : (ℕ → ℕ → Block) → Prop} {T : ℕ → Block} {lg : Log}

/-- `k` blocks of the log are installed, and the cache knows the log blocks.  `K` is
what else the caller wants to keep of the cached contents. -/
structure Install (K : (ℕ → ℕ → Block) → Prop) (T : ℕ → Block) (lg : Log) (k : ℕ) (v : View) :
    Prop where
  log : v.log = lg
  disk : Recoverable lg.start lg.size T (v.disk ROOTDEV) lg.block
  cached : ∀ j, j < lg.n → v.last ROOTDEV (lg.copyOf j) = T (lg.home j)
  done : ∀ j, j < k → v.disk ROOTDEV (lg.home j) = T (lg.home j)
  keep : K v.last

/-- What `K` may say of the cache: nothing that writing `T` or the log area breaks. -/
def Keeps (start size : ℕ) (T : ℕ → Block) (K : (ℕ → ℕ → Block) → Prop) : Prop :=
  ∀ last b d, (InLog start size b ∨ d = T b) → K last → K (storeAt last ROOTDEV b d)

/-- What recovery needs to hold at every write: the disk leads to `T`. -/
def LeadsTo (start size : ℕ) (T : ℕ → Block) (K : (ℕ → ℕ → Block) → Prop) (v : View) : Prop :=
  (∃ l, Recoverable start size T (v.disk ROOTDEV) l) ∧ K v.last

theorem install_phases {C : View → Prop} (hK : Keeps lg.start lg.size T K)
    (hC : ∀ v, v.log.start = lg.start → v.log.size = lg.size →
      LeadsTo lg.start lg.size T K v → C v) :
    CopyPhases C lg Log.copyOf Log.home (Install K T lg)
      (fun k d v => Install K T lg k v ∧ d = T (lg.home k))
      (fun k v => Install K T lg k v ∧ v.last ROOTDEV (lg.home k) = T (lg.home k))
      (fun k v => Install K T lg k v ∧ v.last ROOTDEV (lg.home k) = T (lg.home k)) where
  log _ _ h := h.log
  read k hk v h := ⟨h, h.cached k hk⟩
  modify k hk v d h := by
    obtain ⟨h, rfl⟩ := h
    have hhome := h.disk.home _ (Log.home_mem hk)
    have hfits : lg.n < lg.size := h.disk.fits
    refine ⟨⟨h.log, h.disk, fun j hj => ?_, h.done, hK _ _ _ (Or.inr rfl) h.keep⟩, ?_⟩
    · have hne : lg.copyOf j ≠ lg.home k := by
        intro he
        refine hhome (he ▸ ⟨?_, ?_⟩)
        · simp only [Log.copyOf]; omega
        · simp only [Log.copyOf]; omega
      simp only [View.leave, storeAt_root]
      rw [update_of_ne hne]
      exact h.cached j hj
    · simp [View.leave]
  unpin k _ v h := ⟨⟨h.1.log, h.1.disk, h.1.cached, h.1.done, h.1.keep⟩, h.2⟩
  flush k hk v h := by
    obtain ⟨h, hlast⟩ := h
    have hhome := h.disk.home _ (Log.home_mem hk)
    refine ⟨h.log, ?_, h.cached, fun j hj => ?_, h.keep⟩
    · simp only [View.flush, storeAt_root, hlast]
      exact h.disk.store_home hhome
    · simp only [View.flush, storeAt_root, hlast]
      by_cases hjk : lg.home j = lg.home k
      · rw [hjk, update_self]
      · rw [update_of_ne hjk]
        have hne : j ≠ k := by
          rintro rfl
          exact hjk rfl
        exact h.done j (by omega)
  safeI _ v h := hC v (by rw [h.log]) (by rw [h.log]) ⟨⟨_, h.disk⟩, h.keep⟩
  safeM _ v h := hC v (by rw [h.1.log]) (by rw [h.1.log]) ⟨⟨_, h.1.disk⟩, h.1.keep⟩
  safeU _ v h := hC v (by rw [h.1.log]) (by rw [h.1.log]) ⟨⟨_, h.1.disk⟩, h.1.keep⟩

/-! ## Clearing -/

/-- Everything is installed and `lh.n` is zero, but the header on disk may still list
blocks. -/
structure Cleared (K : (ℕ → ℕ → Block) → Prop) (T : ℕ → Block) (lg : Log) (v : View) : Prop where
  disk : ∃ l, Recoverable lg.start lg.size T (v.disk ROOTDEV) l
  done : ∀ b, ¬ InLog lg.start lg.size b → v.disk ROOTDEV b = T b
  keep : K v.last

/-- The header on disk is empty as well. -/
structure Emptied (K : (ℕ → ℕ → Block) → Prop) (T : ℕ → Block) (lg : Log) (v : View) : Prop where
  pos : 0 < lg.size
  head : header (v.disk ROOTDEV lg.start) = []
  done : ∀ b, ¬ InLog lg.start lg.size b → v.disk ROOTDEV b = T b
  keep : K v.last

/-- The log in memory is empty and nothing is pinned. -/
structure Unpinned (lg : Log) (v : View) : Prop where
  log : v.log = { lg with block := [] }
  pins : ∀ dev b, ¬ v.dirty dev b

theorem Unpinned.logged {v : View} (h : Unpinned lg v) : PinsLogged v :=
  fun dev b hd => absurd hd (h.pins dev b)

/-- Once every block is installed the whole of `T` is in place. -/
theorem Install.cleared {v : View} (h : Install K T lg lg.n v) :
    Cleared K T lg { v with log := { v.log with block := [] } } := by
  refine ⟨⟨_, h.disk⟩, fun b hb => ?_, h.keep⟩
  by_cases hbl : b ∈ lg.block
  · obtain ⟨j, hj, rfl⟩ := Log.exists_home hbl
    exact h.done j hj
  · exact h.disk.rest b hb hbl

theorem Cleared.size_pos {v : View} (h : Cleared K T lg v) : 0 < lg.size := by
  obtain ⟨l, hl⟩ := h.disk
  exact Nat.zero_lt_of_lt hl.fits

theorem Cleared.inLog_start {v : View} (h : Cleared K T lg v) : InLog lg.start lg.size lg.start :=
  ⟨le_refl _, by have := h.size_pos; omega⟩

/-- The write of an empty header. -/
theorem Cleared.flush {v : View} (h : Cleared K T lg v)
    (hhead : header (v.last ROOTDEV lg.start) = []) :
    Emptied K T lg (v.flush ROOTDEV lg.start) := by
  refine ⟨h.size_pos, ?_, fun b hb => ?_, h.keep⟩
  · simpa [View.flush] using hhead
  · have hne : b ≠ lg.start := fun he => hb (he ▸ h.inLog_start)
    simp only [View.flush, storeAt_root]
    rw [update_of_ne hne]
    exact h.done b hb

theorem Emptied.leadsTo {v : View} (h : Emptied K T lg v) : LeadsTo lg.start lg.size T K v :=
  ⟨⟨[], Recoverable.of_empty h.pos h.head h.done⟩, h.keep⟩

end Install

/-! ## Installing and clearing, as the owner of the view -/

section Programs

variable {τ E : Type} [Fintype τ] [DecidableEq τ] {X : View → (τ → E) → Prop} {t : τ}
  {own : (View → Prop) → E} {S : View → Prop} {allowed : BState τ → String → Prop}
  {gs : List Guard} {K : (ℕ → ℕ → Block) → Prop} {T : ℕ → Block} {lg : Log} {C' : View → Prop}

/-- `lh.n = 0; write_head()`, after the installation. -/
theorem own_clear (hx : Exclusive X t own fun v => PinsLogged v ∧ (S v ∨ C' v))
    (hdry : ∀ s G, CInv X s G → s.Full → allowed s "bget: no buffers")
    (hS : ∀ v v', SameFrame v v' → S v → S v')
    (hC' : ∀ v, v.log.start = lg.start → v.log.size = lg.size →
      LeadsTo lg.start lg.size T K v → C' v)
    (hK : Keeps lg.start lg.size T K) :
    Safe (CInv X) allowed t (clearLog.bind fun _ => writeHead t)
      (⟨gs, none, none⟩, own fun v => Pinned lg lg.n v ∧ (S v ∨ Install K T lg lg.n v))
      fun _ γ => γ = (⟨gs, none, none⟩, own fun v => Unpinned lg v ∧ (S v ∨ Emptied K T lg v)) := by
  have hsafe : ∀ v, Unpinned lg v → (S v ∨ Cleared K T lg v) → PinsLogged v ∧ (S v ∨ C' v) :=
    fun v hu h => ⟨hu.logged, h.imp_right fun hc =>
      hC' v (by rw [hu.log]) (by rw [hu.log]) ⟨hc.disk, hc.keep⟩⟩
  refine (own_setBlock hx [] ?_ fun v (h : Unpinned lg v ∧ (S v ∨ Cleared K T lg v)) =>
    hsafe v h.1 h.2).bind ?_
  · rintro v ⟨hp, hi⟩
    refine ⟨⟨by rw [hp.log], fun dev b hd => ?_⟩, ?_⟩
    · obtain ⟨-, j, hj, hj', -⟩ := hp.pins dev b hd
      omega
    · exact hi.imp (hS v _ ⟨rfl, rfl, rfl, rfl, rfl, rfl⟩) Install.cleared
  rintro _ γ rfl
  refine own_writeHead hx hdry { lg with block := [] }
    (M := fun v => Unpinned lg v ∧
      (S v ∨ Cleared K T lg v ∧ header (v.last ROOTDEV lg.start) = []))
    (U := fun v => Unpinned lg v ∧
      (S v ∨ Cleared K T lg v ∧ header (v.last ROOTDEV lg.start) = []))
    (fun v h => h.1.log) ?_ ?_ ?_ ?_ ?_ ?_
  · rintro v ⟨hu, hc⟩
    refine ⟨⟨hu.log, hu.pins⟩, hc.imp (hS v _ (sameFrame_of_log rfl rfl rfl)) fun hc =>
      ⟨⟨hc.disk, hc.done, hK _ _ _ (Or.inl hc.inLog_start) hc.keep⟩, ?_⟩⟩
    simp only [View.leave, storeAt_self]
    exact header_putHeader _ (Nat.zero_le _) (by simp)
  · exact fun v h => hsafe v h.1 (h.2.imp_right And.left)
  · rintro v ⟨hu, hc⟩
    refine ⟨⟨hu.log, fun dev b hd => hu.pins dev b hd.1⟩, ?_⟩
    exact hc.imp (hS v _ (sameFrame_of_log rfl rfl rfl)) fun hc =>
      ⟨⟨hc.1.disk, hc.1.done, hc.1.keep⟩, hc.2⟩
  · exact fun v h => hsafe v h.1 (h.2.imp_right And.left)
  · rintro v ⟨hu, hc⟩
    exact ⟨⟨hu.log, hu.pins⟩, hc.imp (hS v _ (sameFrame_of_log rfl rfl rfl)) fun hc =>
      hc.1.flush hc.2⟩
  · rintro v ⟨hu, hc⟩
    exact ⟨hu.logged, hc.imp_right fun hc =>
      hC' v (by rw [hu.log]) (by rw [hu.log]) hc.leadsTo⟩

/-- Copying the log home and clearing it, from any disk that leads to `T`. -/
theorem own_install (hx : Exclusive X t own fun v => PinsLogged v ∧ (S v ∨ C' v))
    (hdry : ∀ s G, CInv X s G → s.Full → allowed s "bget: no buffers")
    (hS : ∀ v v', SameFrame v v' → S v → S v')
    (hC' : ∀ v, v.log.start = lg.start → v.log.size = lg.size →
      LeadsTo lg.start lg.size T K v → C' v)
    (hK : Keeps lg.start lg.size T K) :
    Safe (CInv X) allowed t
      ((installTrans t).bind fun _ => clearLog.bind fun _ => writeHead t)
      (⟨gs, none, none⟩, own fun v => Pinned lg 0 v ∧ (S v ∨ Install K T lg 0 v))
      fun _ γ => γ = (⟨gs, none, none⟩, own fun v => Unpinned lg v ∧ (S v ∨ Emptied K T lg v)) := by
  refine Safe.bind (M := fun _ γ => γ = (⟨gs, none, none⟩,
    own fun v => Pinned lg lg.n v ∧ (S v ∨ Install K T lg lg.n v))) ?_ ?_
  · exact own_copyBlocks hx hdry lg ((pinned_installTrans lg).orElse (install_phases hK hC') hS)
  · rintro _ γ rfl
    exact own_clear hx hdry hS hC' hK

end Programs

/-! ## `recover_from_log` -/

section Recover

variable {τ : Type} [Fintype τ] [DecidableEq τ] {start size : ℕ} {T : ℕ → Block}

/-- During recovery there is one process, and the disk leads to `T` at all times. -/
def recovering (t : τ) (start size : ℕ) (T : ℕ → Block) (v : View) (F : τ → View → Prop) : Prop :=
  F t v ∧ PinsLogged v ∧ (False ∨ LeadsTo start size T (fun _ => True) v)

omit [Fintype τ] in
theorem exclusive_recovering (t : τ) : Exclusive (recovering t start size T) t id
    fun v => PinsLogged v ∧ (False ∨ LeadsTo start size T (fun _ => True) v) where
  know hX hF := by
    obtain ⟨hR, hC⟩ := hX
    rw [hF] at hR
    exact ⟨hR, hC⟩
  move _ _ _ hR hC := ⟨by rw [update_self]; exact hR, hC⟩

/-- The machine before recovery: the disk leads to `T`, the cache is empty. -/
structure Booted (start size : ℕ) (T : ℕ → Block) (l : List ℕ) (v : View) : Prop where
  log : v.log = Log.fresh start size
  disk : Recoverable start size T (v.disk ROOTDEV) l
  last : v.last = v.disk
  pins : ∀ dev b, ¬ v.dirty dev b

/-- **`recover_from_log` installs what the log holds and empties it**, and at every
write on the way the disk still leads to the same contents. -/
theorem own_recover (t : τ) (l : List ℕ) :
    Safe (CInv (recovering t start size T)) (fun _ _ => True) t (recoverFromLog t)
      (⟨[], none, none⟩, Booted start size T l)
      fun _ γ => γ.2 = fun v => Unpinned { Log.fresh start size with block := l } v ∧
        (False ∨ Emptied (fun _ => True) T { Log.fresh start size with block := l } v) := by
  have hx : Exclusive (recovering t start size T) t id _ := exclusive_recovering t
  unfold recoverFromLog
  refine Safe.bind (M := fun _ γ => γ = (⟨[], none, none⟩,
    fun v => Pinned { Log.fresh start size with block := l } 0 v ∧
      (False ∨ Install (fun _ => True) T { Log.fresh start size with block := l } 0 v))) ?_ ?_
  · unfold readHead
    refine (own_lookLog hx (fun lg => lg) (S := fun _ => Booted start size T l)
      fun v hR _ => hR).bind ?_
    rintro lg γ ⟨v, hv, -, rfl, rfl⟩
    rw [hv.log]
    refine (safe_read fun _ _ _ _ => trivial).bind ?_
    rintro i γ rfl
    -- the block read is the header on disk
    refine (own_dataOf hx (g := ⟨i, ROOTDEV, start⟩) mem_cons_self
      (S := fun d v => header d = l ∧ d.word 0 ≤ LOGSIZE ∧ Booted start size T l v)
      fun v h => ?_).bind ?_
    · have hhead : header (v.last ROOTDEV start) = l := by rw [h.last]; exact h.disk.head
      refine ⟨hhead, ?_, h⟩
      rw [← length_header, hhead]
      exact h.disk.short
    rintro d γ rfl
    split
    · refine safe_panic fun _ _ _ _ => trivial
    · refine (own_setBlock hx (header d) ?_ fun v (h :
        Pinned { Log.fresh start size with block := l } 0 v ∧
          (False ∨ Install (fun _ => True) T { Log.fresh start size with block := l } 0 v)) =>
        ⟨h.1.logged, h.2.imp_right fun hi => ⟨⟨_, hi.disk⟩, trivial⟩⟩).bind ?_
      · rintro v ⟨hd, -, h⟩
        refine ⟨⟨by simp [h.log, hd], fun dev b hb => absurd hb (h.pins dev b)⟩, Or.inr
          ⟨by simp [h.log, hd], h.disk, fun j hj => ?_, fun j hj => absurd hj (Nat.not_lt_zero j),
            trivial⟩⟩
        simp only [h.last]
        exact h.disk.copies j hj
      · rintro _ γ rfl
        refine (safe_releaseBuf (g := ⟨i, ROOTDEV, start⟩) mem_cons_self
          fun m => by simp).mono ?_
        rintro _ γ rfl
        rw [erase_cons_head]
        rfl
  · rintro _ γ rfl
    refine (own_install hx (fun _ _ _ _ => trivial) (fun _ _ _ h => h) (fun v _ _ h => h)
      (fun _ _ _ _ _ => trivial)).mono ?_
    rintro _ γ rfl
    rfl

/-- One recovery, stopped anywhere: the disk still leads to `T`; and if it was not
stopped, `T` is in place and the header is empty. -/
theorem recover_visited {disk : ℕ → ℕ → Block} {l : List ℕ} {t : τ}
    (h : Recoverable start size T (disk ROOTDEV) l) {p : Prog (BState τ) Unit} {s : BState τ}
    (hv : Prog.Visited (recoverFromLog t) (.boot disk (Log.fresh start size)) p s) :
    (∃ l', Recoverable start size T (s.disk ROOTDEV) l') ∧
      (p = .ret () → header (s.disk ROOTDEV start) = [] ∧
        ∀ b, ¬ InLog start size b → s.disk ROOTDEV b = T b) := by
  have hpins : ∀ dev b, ¬ ((BState.boot disk (Log.fresh start size) : BState τ).view
      (Prod.fst ∘ fun _ => (Held.empty, Booted start size T l))).dirty dev b := by
    simp [BState.view, BState.boot]
  have hboot : Booted start size T l ((BState.boot disk (Log.fresh start size) : BState τ).view
      (Prod.fst ∘ fun _ => (Held.empty, Booted start size T l))) :=
    ⟨rfl, h, rfl, hpins⟩
  obtain ⟨G, hI, hfine⟩ := Safe.visited
    (G := fun _ => (Held.empty, Booted start size T l)) (Or.inl (own_recover t l))
    ⟨CacheInv.boot disk (Log.fresh start size), hboot, fun dev b hd => absurd hd (hpins dev b),
      Or.inr ⟨⟨l, h⟩, trivial⟩⟩ hv
  obtain ⟨hknow, -, hleads⟩ := hI.2
  refine ⟨(hleads.resolve_left id).1, ?_⟩
  rintro rfl
  rcases hfine with hpost | ⟨msg, hp, -⟩
  · rw [safe_ret] at hpost
    rw [Function.comp_apply, hpost] at hknow
    have hempty := hknow.2.resolve_left id
    exact ⟨hempty.head, hempty.done⟩
  · cases hp

end Recover

/-- Recovery, restarted after every crash: any number of recoveries cut short, then
one that runs to the end. -/
inductive Recovered (start size : ℕ) : (ℕ → ℕ → Block) → (ℕ → ℕ → Block) → Prop
  | done {disk : ℕ → ℕ → Block} {s : BState Unit} :
      (recoverFromLog ()).run (.boot disk (Log.fresh start size)) = .done () s →
      Recovered start size disk s.disk
  | crash {disk disk' : ℕ → ℕ → Block} {p : Prog (BState Unit) Unit} {s : BState Unit} :
      Prog.Visited (recoverFromLog ()) (.boot disk (Log.fresh start size)) p s →
      Recovered start size s.disk disk' → Recovered start size disk disk'

/-- **Crashes during recovery do not matter.** -/
theorem recovered_of_recoverable {start size : ℕ} {T : ℕ → Block} {disk disk' : ℕ → ℕ → Block}
    {l : List ℕ} (h : Recoverable start size T (disk ROOTDEV) l)
    (hr : Recovered start size disk disk') :
    header (disk' ROOTDEV start) = [] ∧ ∀ b, ¬ InLog start size b → disk' ROOTDEV b = T b := by
  induction hr generalizing l with
  | done hrun => exact (recover_visited h (Prog.visited_of_run hrun)).2 rfl
  | crash hv _ ih =>
    obtain ⟨l', hl'⟩ := (recover_visited h hv).1
    exact ih hl'

end Xv6.Fs
