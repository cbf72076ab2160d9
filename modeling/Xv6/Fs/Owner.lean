import Xv6.Fs.CacheRules

/-!
# Code that has the view to itself

While a commit runs nobody else changes what is on the disk, what was last left
in a block, or the log: no operation is open, and none may begin.  The same holds
of recovery, which runs before anything else.  So the owner may reason about the
view as if it were alone, knowing some `R` of it at every point and moving from
one `R` to the next, as long as every view it passes through meets a crash
condition `C`.

* `Exclusive` — what the surrounding invariant has to grant for that.
* `own_lookLog`, `own_dataOf`, `own_modify`, `own_write`, `own_setBlock` — one step.
* `own_writeHead` — writing the log header.
* `own_copyBlocks` — the loop of `write_log` and `install_trans`, for any phases
  that one round advances (`CopyPhases`).
-/

namespace Xv6.Fs

open Lib List

variable {τ E : Type}

/-! ## Ownership -/

/-- The part of the view the owner must not touch. -/
structure SameFrame (v v' : View) : Prop where
  base : v'.base = v.base
  peak : v'.peak = v.peak
  start : v'.log.start = v.log.start
  size : v'.log.size = v.log.size
  outstanding : v'.log.outstanding = v.log.outstanding
  committing : v'.log.committing = v.log.committing

theorem sameFrame_of_log {v v' : View} (hb : v'.base = v.base) (hp : v'.peak = v.peak)
    (hl : v'.log = v.log) : SameFrame v v' :=
  ⟨hb, hp, by rw [hl], by rw [hl], by rw [hl], by rw [hl]⟩

/-- With the ghost value `own R` process `t` knows `R` of the view and may move it to
any view that meets the crash condition. -/
structure Exclusive [DecidableEq τ] (X : View → (τ → E) → Prop) (t : τ)
    (own : (View → Prop) → E) (C : View → Prop) : Prop where
  know : ∀ {v F R}, X v F → F t = own R → R v ∧ C v
  move : ∀ {v v' F R R'}, X v F → F t = own R → SameFrame v v' → R' v' → C v' →
    X v' (Function.update F t (own R'))

section Steps

variable [Fintype τ] [DecidableEq τ] {X : View → (τ → E) → Prop} {t : τ}
  {own : (View → Prop) → E} {C : View → Prop} {allowed : BState τ → String → Prop}
  {R R' : View → Prop} {h : Held} {gs : List Guard} {g : Guard} {r : Option (Mark × Fin NBUF)}

/-- Looking at the log fixes the view it was seen in. -/
theorem own_lookLog (hx : Exclusive X t own C) {α : Type} (φ : Log → α)
    {S : View → View → Prop} (hS : ∀ v, R v → C v → S v v) :
    Safe (CInv X) allowed t (.look fun s => φ s.log) (h, own R) fun a γ =>
      ∃ v, R v ∧ C v ∧ a = φ v.log ∧ γ = (h, own (S v)) := by
  refine (safe_lookLog (Q := fun a e => ∃ v, R v ∧ C v ∧ a = φ v.log ∧ e = own (S v)) φ
    fun v F hX hF => ?_).mono ?_
  · obtain ⟨hR, hC⟩ := hx.know hX hF
    exact ⟨own (S v), hx.move hX hF (sameFrame_of_log rfl rfl rfl) (hS v hR hC) hC,
      v, hR, hC, rfl, rfl⟩
  · rintro a ⟨h', e⟩ ⟨rfl, v, hR, hC, ha, rfl⟩
    exact ⟨v, hR, hC, ha, rfl⟩

theorem own_dataOf (hx : Exclusive X t own C) (hg : g ∈ gs) {S : Block → View → Prop}
    (hS : ∀ v, R v → S (v.last g.dev g.blockno) v) :
    Safe (CInv X) allowed t (dataOf g.buf) (⟨gs, none, r⟩, own R) fun d γ =>
      γ = (⟨gs, none, r⟩, own (S d)) := by
  refine (safe_dataOf (Q := fun d e => e = own (S d)) hg fun v F hX hF => ?_).mono ?_
  · obtain ⟨hR, hC⟩ := hx.know hX hF
    exact ⟨_, hx.move hX hF (sameFrame_of_log rfl rfl rfl) (hS v hR) hC, rfl⟩
  · rintro d ⟨h', e⟩ ⟨rfl, rfl⟩
    rfl

/-- Changing a held block in the cache. -/
theorem own_modify (hx : Exclusive X t own C) (hg : g ∈ gs)
    (hr : r = none ∨ r = some (.raw, g.buf)) (f : Block → Block)
    (hR : ∀ v, R v → R' (v.leave g.dev g.blockno (f (v.last g.dev g.blockno))))
    (hC : ∀ v, R' v → C v) :
    Safe (CInv X) allowed t (modify g.buf f) (⟨gs, none, r⟩, own R) fun _ γ =>
      γ = (⟨gs, none, some (.raw, g.buf)⟩, own R') := by
  refine (safe_modify (Q := fun e => e = own R') hg hr f fun v F hX hF => ?_).mono ?_
  · have hR' := hR v (hx.know hX hF).1
    exact ⟨_, hx.move hX hF (sameFrame_of_log rfl rfl rfl) hR' (hC _ hR'), rfl⟩
  · rintro _ ⟨h', e⟩ ⟨rfl, rfl⟩
    rfl

/-- Writing a held block to the disk. -/
theorem own_write (hx : Exclusive X t own C) (hg : g ∈ gs)
    (hr : r = none ∨ r = some (.raw, g.buf)) {U : View → Prop}
    (hU : ∀ v, R v → U (v.unpin g.dev g.blockno)) (hCU : ∀ v, U v → C v)
    (hR : ∀ v, U v → R' (v.flush g.dev g.blockno)) (hC : ∀ v, R' v → C v) :
    Safe (CInv X) allowed t (write g.buf) (⟨gs, none, r⟩, own R) fun _ γ =>
      γ = (⟨gs, none, none⟩, own R') := by
  refine (safe_write (Q := fun e => e = own U) (H := fun e => e = own R') hg hr ?_ ?_).mono ?_
  · intro v F hX hF
    have hu := hU v (hx.know hX hF).1
    exact ⟨_, hx.move hX hF (sameFrame_of_log rfl rfl rfl) hu (hCU _ hu), rfl⟩
  · rintro e rfl v F hX hF
    have hR' := hR v (hx.know hX hF).1
    exact ⟨_, hx.move hX hF (sameFrame_of_log rfl rfl rfl) hR' (hC _ hR'), rfl⟩
  · rintro _ ⟨h', e⟩ ⟨rfl, rfl⟩
    rfl

/-- Changing the list of logged blocks. -/
theorem own_setBlock (hx : Exclusive X t own C) (l : List ℕ)
    (hR : ∀ v, R v → R' { v with log := { v.log with block := l } }) (hC : ∀ v, R' v → C v) :
    Safe (CInv X) allowed t (.change fun s => { s with log := { s.log with block := l } })
      (h, own R) fun _ γ => γ = (h, own R') := by
  refine safe_change fun s G hI hG => ?_
  have hF : (Prod.snd ∘ G) t = own R := by simp [hG]
  have hR' := hR _ (hx.know hI.2 hF).1
  exact ⟨_, CInv.setLog s.base hI hG
    (hx.move hI.2 hF ⟨rfl, rfl, rfl, rfl, rfl, rfl⟩ hR' (hC _ hR')), rfl⟩

/-! ## The log header -/

/-- `write_head`: the header is changed in the cache, then on the disk. -/
theorem own_writeHead (hx : Exclusive X t own C)
    (hdry : ∀ s G, CInv X s G → s.Full → allowed s "bget: no buffers") (lg : Log)
    {M U : View → Prop} (hlog : ∀ v, R v → v.log = lg)
    (hM : ∀ v, R v →
      M (v.leave ROOTDEV lg.start (putHeader lg.block (v.last ROOTDEV lg.start))))
    (hCM : ∀ v, M v → C v) (hU : ∀ v, M v → U (v.unpin ROOTDEV lg.start)) (hCU : ∀ v, U v → C v)
    (hR : ∀ v, U v → R' (v.flush ROOTDEV lg.start)) (hC : ∀ v, R' v → C v) :
    Safe (CInv X) allowed t (writeHead t) (⟨gs, none, none⟩, own R) fun _ γ =>
      γ = (⟨gs, none, none⟩, own R') := by
  unfold writeHead
  refine (own_lookLog hx (fun lg => lg) (S := fun _ => R) fun v hR _ => hR).bind ?_
  rintro lg' γ ⟨v, hv, -, rfl, rfl⟩
  rw [hlog v hv]
  refine (safe_read hdry).bind ?_
  rintro i γ rfl
  refine (own_modify hx (g := ⟨i, ROOTDEV, lg.start⟩) mem_cons_self (Or.inl rfl) _ hM
    hCM).bind ?_
  rintro _ γ rfl
  refine (own_write hx (g := ⟨i, ROOTDEV, lg.start⟩) mem_cons_self (Or.inr rfl) hU hCU hR
    hC).bind ?_
  rintro _ γ rfl
  refine (safe_releaseBuf (g := ⟨i, ROOTDEV, lg.start⟩) mem_cons_self fun m => by simp).mono ?_
  rintro _ γ rfl
  rw [erase_cons_head]

/-! ## The copying loop -/

/-- The phases of a copying loop: `I k` when `k` blocks are copied; in round `k` the
data `d` read from the source (`D k d`), the destination changed in the cache
(`M k`), flagged (`U k`) and written. -/
structure CopyPhases (C : View → Prop) (lg : Log) (src dst : Log → ℕ → ℕ)
    (I : ℕ → View → Prop) (D : ℕ → Block → View → Prop) (M U : ℕ → View → Prop) : Prop where
  log : ∀ k v, I k v → v.log = lg
  read : ∀ k, k < lg.n → ∀ v, I k v → D k (v.last ROOTDEV (src lg k)) v
  modify : ∀ k, k < lg.n → ∀ v d, D k d v → M k (v.leave ROOTDEV (dst lg k) d)
  unpin : ∀ k, k < lg.n → ∀ v, M k v → U k (v.unpin ROOTDEV (dst lg k))
  flush : ∀ k, k < lg.n → ∀ v, U k v → I (k + 1) (v.flush ROOTDEV (dst lg k))
  safeI : ∀ k v, I k v → C v
  safeM : ∀ k v, M k v → C v
  safeU : ∀ k v, U k v → C v

theorem own_copyBlocks (hx : Exclusive X t own C)
    (hdry : ∀ s G, CInv X s G → s.Full → allowed s "bget: no buffers") (lg : Log)
    {src dst : Log → ℕ → ℕ} {I : ℕ → View → Prop} {D : ℕ → Block → View → Prop}
    {M U : ℕ → View → Prop} (hph : CopyPhases C lg src dst I D M U) :
    Safe (CInv X) allowed t (copyBlocks t src dst) (⟨gs, none, none⟩, own (I 0)) fun _ γ =>
      γ = (⟨gs, none, none⟩, own (I lg.n)) := by
  unfold copyBlocks
  refine (own_lookLog hx (fun lg => lg.n) (S := fun _ => I 0) fun v hR _ => hR).bind ?_
  rintro n γ ⟨v, hv, -, rfl, rfl⟩
  simp only [hph.log 0 v hv]
  -- the rounds still to come are those from `k` on
  refine (safe_forEach (J := fun rest γ => ∃ k, k + rest.length = lg.n ∧
    rest = List.range' k rest.length ∧ γ = (⟨gs, none, none⟩, own (I k))) ?_ ?_).mono ?_
  · exact ⟨0, by simp, by simp [range_eq_range'], rfl⟩
  · rintro tail rest γ ⟨k, hk, hrange, rfl⟩
    simp only [length_cons, range'_succ, List.cons.injEq] at hk hrange
    obtain ⟨rfl, hrest⟩ := hrange
    have hlt : tail < lg.n := by omega
    refine (own_lookLog hx (fun lg => lg) (S := fun _ => I tail) fun v hR _ => hR).bind ?_
    rintro lg' γ ⟨w, hw, -, rfl, rfl⟩
    rw [hph.log tail w hw]
    refine (safe_read hdry).bind ?_
    rintro i γ rfl
    refine (safe_read hdry).bind ?_
    rintro j γ rfl
    refine (own_dataOf hx (g := ⟨i, ROOTDEV, src lg tail⟩) (by simp) (hph.read tail hlt)).bind ?_
    rintro d γ rfl
    refine (own_modify hx (g := ⟨j, ROOTDEV, dst lg tail⟩) mem_cons_self (Or.inl rfl)
      (fun _ => d) (fun v => hph.modify tail hlt v d) (hph.safeM tail)).bind ?_
    rintro _ γ rfl
    refine (own_write hx (g := ⟨j, ROOTDEV, dst lg tail⟩) mem_cons_self (Or.inr rfl)
      (hph.unpin tail hlt) (hph.safeU tail) (hph.flush tail hlt) (hph.safeI (tail + 1))).bind ?_
    rintro _ γ rfl
    refine (safe_releaseBuf (g := ⟨j, ROOTDEV, dst lg tail⟩) mem_cons_self
      fun m => by simp).bind ?_
    rintro _ γ rfl
    rw [erase_cons_head]
    refine (safe_releaseBuf (g := ⟨i, ROOTDEV, src lg tail⟩) mem_cons_self
      fun m => by simp).mono ?_
    rintro _ γ rfl
    rw [erase_cons_head]
    exact ⟨tail + 1, by omega, hrest, rfl⟩
  · rintro _ γ ⟨k, hk, -, rfl⟩
    simp only [length_nil, add_zero] at hk
    rw [hk]

end Steps

end Xv6.Fs
