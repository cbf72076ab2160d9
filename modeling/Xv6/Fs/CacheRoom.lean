import Xv6.Fs.CrashSafety

/-!
# When the buffer cache runs dry

`get` panics when every buffer is referenced or dirty.  Dirty buffers that nobody
refers to hold blocks of the running transaction, so the cache runs dry only when
the logged blocks and the buffers the processes hold or wait for fill it together.

* `dry_of_readers` — one process more than there are buffers, each reading a block
  of its own outside any operation, does fill it.
* `dry_only_when_full` — the panic happens only with `NBUF` distinct blocks in use,
  each referenced by a process or listed in the log header: `lh.n` plus the
  referenced buffers is then at least `NBUF`.
-/

namespace Xv6.Fs

open Lib

variable {τ : Type}

/-- Process `k` reads block `59 + k` and has not released it yet. -/
def manyReaders : List (Fin 31 × (Client → Prog (BState (Fin 31)) Client)) :=
  (List.finRange 31).map fun k => (k, fun c =>
    (read k 1 (59 + k)).bind fun i => .ret { c with guards := ⟨i, 1, 59 + k⟩ :: c.guards })

/-- Has the last reader run out of buffers? -/
def lastDry (P : Pool (BState (Fin 31)) (Fin 31) Client) : Bool :=
  match P.thread 30 with
  | .panic msg => msg == "bget: no buffers"
  | _ => false

theorem manyReaders_dry : ∃ P : Pool (BState (Fin 31)) (Fin 31) Client,
    Pool.Reachable (LogCall 2 30) (logBoot (fun _ _ => .zero) 2 30) P ∧
      P.thread 30 = .panic "bget: no buffers" := by
  have hrun : (Pool.runCalls manyReaders (logBoot (fun _ _ => .zero) 2 30)).map lastDry =
      some true := by decide +kernel
  obtain ⟨P, hP, hdry⟩ := Option.map_eq_some_iff.1 hrun
  refine ⟨P, Pool.reachable_of_runCalls ?_ (fun _ _ => by simp [logBoot]) hP, ?_⟩
  · intro c hc l
    obtain ⟨k, -, rfl⟩ := List.mem_map.1 hc
    exact .read 1 (59 + k)
  · unfold lastDry at hdry
    split at hdry
    · rename_i msg hthread
      rw [hthread, eq_of_beq hdry]
    · cases hdry

/-- The panic is reachable: the disk has an empty log header, and every process does
no more than read one block. -/
theorem dry_of_readers : header ((fun _ _ => Block.zero : ℕ → ℕ → Block) ROOTDEV 2) = [] ∧
    ∃ P : Pool (BState (Fin 31)) (Fin 31) Client,
      Pool.Reachable (LogCall 2 30) (logBoot (fun _ _ => .zero) 2 30) P ∧
        P.thread 30 = .panic "bget: no buffers" := by
  refine ⟨?_, manyReaders_dry⟩
  rw [header_eq_nil_iff, Block.word_zero]

/-- Every buffer is in use: referenced by a process or holding a logged block. -/
structure AllInUse (s : BState τ) : Prop where
  used : ∀ i, 0 < (s.buf i).refcnt ∨ ∃ b ∈ s.log.block, (s.buf i).tag = (ROOTDEV, b)
  distinct : ∀ i j, (s.buf i).tag = (s.buf j).tag → i = j

/-- Then the logged blocks and the referenced buffers make up the whole cache. -/
theorem AllInUse.card_le {s : BState τ} (h : AllInUse s) :
    NBUF ≤ s.log.n + (Finset.univ.filter fun i => 0 < (s.buf i).refcnt).card := by
  have hsplit := Finset.card_filter_add_card_filter_not (s := (Finset.univ : Finset (Fin NBUF)))
    fun i => 0 < (s.buf i).refcnt
  have hlogged : (Finset.univ.filter fun i => ¬ 0 < (s.buf i).refcnt).card ≤ s.log.n := by
    refine (Finset.card_le_card_of_injOn (t := s.log.block.toFinset)
      (fun i => (s.buf i).tag.2) ?_ ?_).trans (List.toFinset_card_le _)
    · intro i hi
      obtain ⟨b, hb, ht⟩ := (h.used i).resolve_left (Finset.mem_filter.1 hi).2
      simpa [ht] using hb
    · intro i hi j hj hij
      obtain ⟨b, -, hti⟩ := (h.used i).resolve_left (Finset.mem_filter.1 hi).2
      obtain ⟨c, -, htj⟩ := (h.used j).resolve_left (Finset.mem_filter.1 hj).2
      have hbc : b = c := by simpa [hti, htj] using hij
      exact h.distinct i j (by rw [hti, htj, hbc])
  rw [Finset.card_univ, Fintype.card_fin] at hsplit
  omega

variable [Fintype τ] [DecidableEq τ]

omit [DecidableEq τ] in
/-- Only logged blocks are pinned, whether or not a commit is running. -/
theorem LogInv.pinsLogged {start size : ℕ} {v : View} {F : τ → Role}
    (h : LogInv start size v F) : PinsLogged v := by
  by_cases hno : ∀ r R, F r ≠ .own R
  · exact (h.quiet hno).1
  · push Not at hno
    obtain ⟨r, R, hr⟩ := hno
    exact (h.known r R hr).2.1

omit [DecidableEq τ] in
/-- A cache with no idle buffer is full of blocks in use. -/
theorem CInv.allInUse {start size : ℕ} {s : BState τ} {G : τ → Held × Role}
    (hI : CInv (LogInv start size) s G) (hfull : s.Full) : AllInUse s := by
  have hbusy : ∀ i, 0 < (s.buf i).refcnt ∨ (s.buf i).refcnt = 0 ∧ (s.buf i).dirty = true := by
    intro i
    have hidle := mt (Buf.idle_iff (s.buf i)).2 (by simp [hfull i])
    by_cases h0 : (s.buf i).refcnt = 0
    · right
      exact ⟨h0, by simpa [h0] using hidle⟩
    · exact .inl (Nat.pos_of_ne_zero h0)
  have hlive : ∀ i, (s.buf i).Live := fun i => (hbusy i).imp_right fun h => Or.inr h.2
  refine ⟨fun i => ?_, fun i j => hI.1.lists.unique i j (hlive i) (hlive j)⟩
  rcases hbusy i with hpos | ⟨h0, hd⟩
  · exact .inl hpos
  · right
    have hview : (s.view (Prod.fst ∘ G)).dirty (s.buf i).tag.1 (s.buf i).tag.2 :=
      ⟨i, rfl, hd, fun ⟨q, hq⟩ => hI.1.not_mark h0 q _ hq⟩
    obtain ⟨hdev, hb⟩ := hI.2.pinsLogged _ _ hview
    exact ⟨_, hb, Prod.ext hdev rfl⟩

/-- **The cache runs dry only when it is full of blocks in use.**  In every state any
interleaving reaches, if `get` has panicked then every buffer is referenced by a
process or holds a logged block, all of different blocks, so that `lh.n` and the
referenced buffers together make up at least `NBUF`. -/
theorem dry_only_when_full (disk : ℕ → ℕ → Block) (start size : ℕ)
    (hhead : header (disk ROOTDEV start) = []) (P : Pool (BState τ) τ Client)
    (hP : Pool.Reachable (LogCall start size) (logBoot disk start size) P) (t : τ)
    (hdry : P.thread t = .panic "bget: no buffers") :
    (∀ i, 0 < (P.shared.buf i).refcnt ∨
        ∃ b ∈ P.shared.log.block, (P.shared.buf i).tag = (ROOTDEV, b)) ∧
      (∀ i j, (P.shared.buf i).tag = (P.shared.buf j).tag → i = j) ∧
      NBUF ≤ P.shared.log.n +
        (Finset.univ.filter fun i => 0 < (P.shared.buf i).refcnt).card := by
  have hsafe : ∀ (t : τ) c γ p, Between t c γ → LogCall start size t c p →
      Safe (CInv (LogInv start size)) (fun s msg => msg = "bget: no buffers" → AllInUse s) t p γ
        (Between t) :=
    logCall_safe (fun s G hI hfull _ => CInv.allInUse hI hfull) fun s msg hne he => absurd he hne
  obtain ⟨-, -, -, hpanic⟩ := (Pool.sound hsafe (logBoot_ok hhead) hP).post
  have huse := hpanic t _ hdry rfl
  exact ⟨huse.used, huse.distinct, huse.card_le⟩

theorem dry_only_when_full_readers : ∃ P : Pool (BState (Fin 31)) (Fin 31) Client,
    P.thread 30 = .panic "bget: no buffers" ∧ NBUF ≤ P.shared.log.n +
      (Finset.univ.filter fun i => 0 < (P.shared.buf i).refcnt).card := by
  obtain ⟨P, hP, hdry⟩ := manyReaders_dry
  have hhead : header ((fun _ _ => Block.zero : ℕ → ℕ → Block) ROOTDEV 2) = [] := by
    rw [header_eq_nil_iff, Block.word_zero]
  exact ⟨P, hdry, (dry_only_when_full _ 2 30 hhead P hP 30 hdry).2.2⟩

end Xv6.Fs
