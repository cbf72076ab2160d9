import Xv6.Lib.Machine
import Xv6.Fs.ByteArray

/-!
# Writers that share an open file

`filewrite` cuts its data into chunks and writes each of them in a transaction of its own, so the
calls of processes that share an open file take turns between chunks.  The position is read and
advanced while the inode is locked; every chunk is therefore written where the last one ended.

* `cut` — the chunks of a call.
* `wp_appendSection` — a transaction at the end of the file appends its chunk.
* `shared_writes_append` — what any turns of any calls leave in the file.
* `turns_of_writeSections`, `filewrite_appends` — a call on its own takes its turns in a row.
* `run_fileread` — what a read returns.
-/

namespace Xv6.Fs

open Lib Prog Function List

/-! ## Chunks -/

/-- The chunks that `filewrite` makes of its data. -/
def cut (l : List UInt8) : List (List UInt8) :=
  if l = [] then [] else l.take Vol.maxChunk :: cut (l.drop Vol.maxChunk)
termination_by l.length
decreasing_by
  have hpos : 0 < l.length := length_pos_iff.2 ‹_›
  have hchunk : Vol.maxChunk = 6656 := rfl
  rw [length_drop]
  omega

theorem cut_nil : cut [] = [] := by
  rw [cut, if_pos rfl]

theorem cut_cons {l : List UInt8} (h : l ≠ []) :
    cut l = l.take Vol.maxChunk :: cut (l.drop Vol.maxChunk) := by
  rw [cut, if_neg h]

theorem flatten_cut (l : List UInt8) : (cut l).flatten = l := by
  induction l using cut.induct with
  | case1 => rw [cut_nil, flatten_nil]
  | case2 l hne ih => rw [cut_cons hne, flatten_cons, ih, take_append_drop]

/-- The bytes `writei` is given are the next chunk. -/
theorem map_range_getD (l : List UInt8) (i m : ℕ) :
    (List.range (min (l.length - i) m)).map (fun k => l.getD (i + k) 0) = (l.drop i).take m := by
  apply ext_getElem
  · simp [Nat.min_comm]
  · intro k h₁ h₂
    simp only [length_map, length_range] at h₁
    rw [getElem_map, getElem_range, getElem_take, getElem_drop, getD_eq_getElem _ _ (by omega)]

theorem overwrite_length (c d : List UInt8) : overwrite c c.length d = c ++ d := by
  simp [overwrite]

namespace Vol

variable {τ : Type} {s s' : Vol τ} {me : τ} {f : Fin NFILE} {n : ℕ} {E : String → Prop}

/-! ## One transaction at the end of the file -/

/-- The inode of the open file. -/
def fileInum (s : Vol τ) (f : Fin NFILE) : ℕ := s.num (s.file f).ip

/-- A transaction has appended `d` to the open file. -/
structure Appended (f : Fin NFILE) (d : List UInt8) (s s' : Vol τ) : Prop where
  ready : Ready s' f
  inum : s'.fileInum f = s.fileInum f
  content : s'.content (s.fileInum f) = s.content (s.fileInum f) ++ d
  off : (s'.file f).off = (s.file f).off + d.length

/-- **A transaction that starts at the end of the file appends its chunk.** -/
theorem wp_appendSection (D : Devsw τ) (h : Ready s f) (src : ℕ → UInt8)
    (hoff : (s.file f).off = (s.content (s.fileInum f)).length) (hn : 0 < n)
    (hmax : (s.file f).off + n ≤ MAXFILE * BSIZE) (hwait : s.log.mustWait = false)
    (hspare : (s.opened me f).Spare E ((s.opened me f).newBlocks (s.fileInum f)
      (span (s.file f).off n)))
    (hroom : (s.opened me f).log.RoomOr E
      ((s.opened me f).writeSet (s.file f).ip (s.file f).off n)) :
    (writeSection D me f src n).wp E (fun r s' => r = n ∧ Appended f ((List.range n).map src) s s')
      s := by
  obtain ⟨hs, -, hl, hd⟩ := h.opened me
  have hnum : (s.opened me f).num (s.file f).ip = s.fileInum f := by
    rw [num, Vol.opened, inode_locked]
    rfl
  have hsize : (s.file f).off = (s.dinode (s.fileInum f)).size.toNat := by rw [hoff, length_content]
  have hopened : (s.opened me f).content (s.fileInum f) = s.content (s.fileInum f) := by
    refine content_congr rfl rfl ?_
    rw [← hnum, hs.dinode_num hl, hd, hnum]
    rfl
  refine wp_writeSection_of D h src hwait hspare hroom (fun _ t lg ho => ⟨rfl, ?_⟩) fun hno => ?_
  · have hip : ((t.sectionEnd f (s.file f).ip n lg).file f).ip = (s.file f).ip :=
      (ip_sectionEnd t f (s.file f).ip n lg).trans (congrArg File.ip (congrFun ho.framed.file f))
    refine ⟨h.closed ho.framed hip lg, ?_, ?_, ?_⟩
    · rw [fileInum, hip, ← hnum, ← ho.framed.num]
      unfold sectionEnd unlocked
      rw [num, inode_modInode_self]
    · have hclosed : (t.sectionEnd f (s.file f).ip n lg).content (s.fileInum f) =
        t.content (s.fileInum f) :=
        content_congr rfl rfl (dinode_unlocked _ _ _)
      have hwritten := ho.content hs hl (by rw [hd, hsize]; rfl)
      rw [hnum, hopened] at hwritten
      rw [hclosed, hwritten, hoff, overwrite_length]
    · have hfile : t.file f = s.file f := congrFun ho.framed.file f
      rw [length_map, length_range]
      change ((if (0 : ℤ) < n then update t.file f _ else t.file) f).off = _
      rw [if_pos (by exact_mod_cast hn), update_self, Int.toNat_natCast, hfile]
  · exact absurd ⟨hsize.le, hmax⟩ hno

/-! ## A read -/

theorem length_readResult (c : List UInt8) (off n : ℕ) : (readResult c off n).2.length =
    if 0 < (readResult c off n).1 then (readResult c off n).1.toNat else 0 := by
  unfold readResult
  split_ifs with hbad hpos hpos
  · exact absurd hpos (by decide)
  · rfl
  · rw [Int.toNat_natCast, length_take, length_drop]
  · change ¬ 0 < ((min n (c.length - off) : ℕ) : ℤ) at hpos
    rw [length_take, length_drop]
    omega

/-- The file with its inode locked is the same file. -/
theorem Ready.locked (h : Ready s f) (me : τ) :
    (s.locked me (s.file f).ip).num (s.file f).ip = s.fileInum f ∧
      ((s.locked me (s.file f).ip).inode (s.file f).ip).d = s.dinode (s.fileInum f) ∧
      (s.locked me (s.file f).ip).dinode (s.fileInum f) = s.dinode (s.fileInum f) ∧
      (s.locked me (s.file f).ip).content (s.fileInum f) = s.content (s.fileInum f) := by
  obtain ⟨hs, -, hl⟩ := h.sound.locked h.ref me
  have hnum : (s.locked me (s.file f).ip).num (s.file f).ip = s.fileInum f := by
    rw [num, inode_locked]
    rfl
  have hin : ((s.locked me (s.file f).ip).inode (s.file f).ip).d = s.dinode (s.fileInum f) := by
    rw [inode_locked]
    rfl
  have hd : (s.locked me (s.file f).ip).dinode (s.fileInum f) = s.dinode (s.fileInum f) := by
    rw [← hnum, hs.dinode_num hl, hin, hnum]
  exact ⟨hnum, hin, hd, content_congr rfl rfl hd⟩

theorem Ready.run_readi (D : Devsw τ) (h : Ready s f) (hholes : s.NoHoles (s.fileInum f)) (me : τ)
    (off n : ℕ) : (readi D me (s.file f).ip off n).run (s.locked me (s.file f).ip) =
      .done (readResult (s.content (s.fileInum f)) off n) (s.locked me (s.file f).ip) := by
  obtain ⟨hs, hrefs, hl⟩ := h.sound.locked h.ref me
  obtain ⟨hnum, hin, hd, hcontent⟩ := h.locked me
  have htype : (s.dinode (s.fileInum f)).itype = T_FILE := h.regular
  have hmapped : (s.locked me (s.file f).ip).NoHoles (s.fileInum f) := by
    intro k hk
    rw [hd] at hk
    rw [blockAt, hrefs]
    exact hholes k hk
  have hread := @Vol.run_readi _ _ me _ D hs hl (by rw [hin, htype]; decide)
    (by rw [hin]; exact isDev_eq_false htype) h.idle (hnum.symm ▸ hmapped) off n
  rwa [hnum, hcontent] at hread

/-- A read that moves the position by `k` changes nothing else. -/
structure Moved (f : Fin NFILE) (k : ℕ) (s s' : Vol τ) : Prop where
  ready : Ready s' f
  content : s'.content (s.fileInum f) = s.content (s.fileInum f)
  off : (s'.file f).off = (s.file f).off + k

/-- The end of a read, whatever the position has become. -/
theorem Ready.wp_iunlock (h : Ready s f) (me : τ) {g : Fin NFILE → File} {k : ℕ}
    (hip : (g f).ip = (s.file f).ip) (hoff : (g f).off = (s.file f).off + k) :
    (iunlock (s.file f).ip).wp E (fun _ => Moved f k s)
      ({ s.locked me (s.file f).ip with file := g } : Vol τ) := by
  obtain ⟨-, -, hl⟩ := h.sound.locked h.ref me
  obtain ⟨-, -, -, hcontent⟩ := h.locked me
  have hheld : ((s.locked me (s.file f).ip).inode (s.file f).ip).lock = some me := by
    rw [inode_locked]
  refine Vol.wp_iunlock (s := { s.locked me (s.file f).ip with file := g }) hl.1 hheld
    ⟨h.closed (Grown.refl (h.opened me).1 _).framed hip s.log, ?_, hoff⟩
  rw [← hcontent]
  exact content_congr rfl rfl (dinode_unlocked _ _ _)

/-- **`fileread` of a regular file without holes** returns its bytes from the position on, and moves
the position past them. -/
theorem run_fileread (D : Devsw τ) (piperead : Fin NFILE → ℤ → Prog (Vol τ) (ℤ × List UInt8))
    (me : τ) (h : Ready s f) (hr : (s.file f).readable = true) (ht : (s.file f).ftype = .inode)
    (hholes : s.NoHoles (s.fileInum f)) {n : ℤ} {R : ℤ × List UInt8}
    (hR : R = readResult (s.content (s.fileInum f)) (s.file f).off (n % 2 ^ 32).toNat) :
    ∃ s', (fileread D piperead me f n).run s = .done R s' ∧ Moved f R.2.length s s' := by
  have hread := h.run_readi D hholes me (s.file f).off (n % 2 ^ 32).toNat
  have hlen : R.2.length = if 0 < R.1 then R.1.toNat else 0 := hR ▸ length_readResult ..
  rw [← hR] at hread
  have hwp : (fileread D piperead me f n).wp noPanic
      (fun r s' => r = R ∧ Moved f R.2.length s s') s := by
    simp only [fileread, bind_eq, wp_bind, wp_look, hr, ht, Bool.not_true, Bool.false_eq_true,
      if_false]
    refine wp_ilock h.sound h.ref h.lock (h.idle _) (Or.inl ?_) fun _ => ?_
    · rw [h.regular]
      decide
    refine (wp_iff_run _).2 (Or.inl ⟨R, _, hread, ?_⟩)
    rw [advance]
    split_ifs at hlen ⊢
    · rw [wp_change]
      refine wp_mono (h.wp_iunlock me ?_ ?_) fun _ _ hm => ⟨rfl, hm⟩
      · rw [update_self]
        rfl
      · rw [update_self, hlen]
        rfl
    · rw [pure_eq, wp_ret]
      have hend : (s.file f).off = (s.file f).off + R.2.length := by rw [hlen, Nat.add_zero]
      exact wp_mono (h.wp_iunlock me (g := s.file) rfl hend) fun _ _ hm => ⟨rfl, hm⟩
  obtain ⟨r, s', hrun, rfl, hm⟩ := (wp_noPanic_iff _).1 hwp
  exact ⟨s', hrun, hm⟩

end Vol

/-! ## Calls that take turns -/

open Vol

/-- The volume, how many bytes each call has written, and which calls have given up. -/
structure Shared (τ ι : Type) where
  vol : Vol τ
  done : ι → ℕ
  broken : ι → Bool

/-- What happens: a call writes its next chunk, or transactions begin, end and commit. -/
inductive WriteAct (ι : Type) where
  | chunk (c : ι)
  | log (lg : Log)

section Machine

variable {τ ι : Type} [DecidableEq ι]

/-- The end of the loop body of `filewrite`: `break` on an error, a panic on a short write. -/
def Shared.after (s : Shared τ ι) (c : ι) (n : ℕ) : Prog.Outcome (Vol τ) ℤ → Option (Shared τ ι)
  | .done r vol =>
    if r < 0 then some { s with vol := vol, broken := update s.broken c true }
    else if r ≠ n then none
    else some { s with vol := vol, done := update s.done c (s.done c + r.toNat) }
  | _ => none

/-- The next chunk of a call. -/
def Shared.chunkLength (data : ι → List UInt8) (s : Shared τ ι) (c : ι) : ℕ :=
  min ((data c).length - s.done c) maxChunk

/-- One turn: the loop body of `filewrite` for the call `c`, made by `me c` with `data c`. -/
def writeStep (D : Devsw τ) (f : Fin NFILE) (me : ι → τ) (data : ι → List UInt8) (s : Shared τ ι) :
    WriteAct ι → Option (Shared τ ι)
  | .chunk c =>
    if s.broken c = false ∧ s.done c < (data c).length then
      s.after c (s.chunkLength data c)
        ((writeSection D (me c) f (fun k => (data c).getD (s.done c + k) 0)
          (s.chunkLength data c)).run s.vol)
    else none
  | .log lg => some { s with vol := { s.vol with log := lg } }

/-- Nothing written yet. -/
def begun (ι : Type) (vol : Vol τ) : Shared τ ι := ⟨vol, fun _ => 0, fun _ => false⟩

variable {D : Devsw τ} {f : Fin NFILE} {me : ι → τ} {data : ι → List UInt8}
  {s s' : Shared τ ι} {c : ι}

theorem Shared.after_of_done {vol : Vol τ} (s : Shared τ ι) (c : ι) (n : ℕ) :
    s.after c n (.done n vol) = some { s with
      vol := vol, done := update s.done c (s.done c + n) } := by
  simp [Shared.after]

theorem Shared.after_eq_some {n : ℕ} {o : Prog.Outcome (Vol τ) ℤ} (h : s.after c n o = some s') :
    ∃ r vol, o = .done r vol := by
  cases o with
  | done r vol => exact ⟨r, vol, rfl⟩
  | panicked msg vol => simp [Shared.after] at h
  | stuck vol => simp [Shared.after] at h

/-- A call that runs its loop to the end takes turns of its own only, and then gives up or is
done. -/
theorem turns_of_writeSections (me : ι → τ) (data : ι → List UInt8) {s₀ : Shared τ ι} {fuel n : ℕ}
    {vol : Vol τ}
    (h : Reach (writeStep D f me data) anyStep s₀ s) (hb : s.broken c = false)
    (hfuel : (data c).length - s.done c ≤ fuel)
    (hrun : (writeSections D (me c) f (fun k => (data c).getD k 0) (data c).length fuel
      (s.done c)).run s.vol = .done n vol) :
    ∃ s', Reach (writeStep D f me data) anyStep s₀ s' ∧ s'.vol = vol ∧ s'.done c = n ∧
      (s'.broken c = true ∨ (data c).length ≤ n) := by
  induction fuel generalizing s with
  | zero =>
    cases hrun
    exact ⟨s, h, rfl, rfl, Or.inr (by omega)⟩
  | succ fuel ih =>
    rw [writeSections] at hrun
    split_ifs at hrun with hlt
    · rw [bind_eq, run_bind] at hrun
      have hstep : ∀ s', s.after c (s.chunkLength data c)
          ((writeSection D (me c) f (fun k => (data c).getD (s.done c + k) 0)
            (s.chunkLength data c)).run s.vol) = some s' →
          Reach (writeStep D f me data) anyStep s₀ s' := by
        intro s' hs'
        refine h.step (a := .chunk c) trivial ?_
        simp only [writeStep]
        rw [if_pos ⟨hb, hlt⟩, hs']
      rw [Shared.chunkLength] at hstep
      cases ho : (writeSection D (me c) f (fun k => (data c).getD (s.done c + k) 0)
        (min ((data c).length - s.done c) maxChunk)).run s.vol with
      | done r vol₁ =>
        rw [ho] at hrun hstep
        simp only [Shared.after] at hrun hstep
        split_ifs at hrun hstep with hneg hne
        · cases hrun
          exact ⟨_, hstep _ rfl, rfl, rfl, Or.inl (update_self ..)⟩
        · cases hrun
        · have hmax : maxChunk = 6656 := rfl
          refine ih (hstep _ rfl) hb ?_ ?_
          · simp only [update_self]
            omega
          · simp only [update_self]
            exact hrun
      | panicked msg vol₁ => rw [ho] at hrun; cases hrun
      | stuck vol₁ => rw [ho] at hrun; cases hrun
    · cases hrun
      exact ⟨s, h, rfl, rfl, Or.inr (by omega)⟩

variable [Fintype ι]

/-- What the calls have left of the file that held `old`. -/
structure Turns (f : Fin NFILE) (data : ι → List UInt8) (old : List UInt8) (i : ℕ)
    (s : Shared τ ι) : Prop where
  ready : Vol.Ready s.vol f
  inum : s.vol.fileInum f = i
  broken : ∀ c, s.broken c = false
  le : ∀ c, s.done c ≤ (data c).length
  off : (s.vol.file f).off = old.length + ∑ c, s.done c
  length : (s.vol.content i).length = (s.vol.file f).off
  /-- The chunks in the order they were written. -/
  chunks : ∃ H : List (ι × List UInt8), s.vol.content i = old ++ (H.map Prod.snd).flatten ∧
    ∀ c, (H.filter fun x => x.1 = c).map Prod.snd ++ cut ((data c).drop (s.done c)) = cut (data c)

variable {old : List UInt8} {i : ℕ}

/-- A call that has written some bytes more. -/
theorem sum_done_update (s : Shared τ ι) (c : ι) (n : ℕ) :
    ∑ x, update s.done c (s.done c + n) x = (∑ x, s.done x) + n := by
  have hsum := sum_update_add (fun k : ℕ => k) s.done c (s.done c + n)
  omega

theorem Turns.update_le (h : Turns f data old i s) (c x : ι) :
    update s.done c (s.done c + s.chunkLength data c) x ≤ (data x).length := by
  by_cases hx : x = c
  · subst hx
    have hdone := h.le x
    rw [update_self, Shared.chunkLength]
    omega
  · rw [update_of_ne hx]
    exact h.le x

/-- The next chunk of a call fits into what all calls are to write. -/
theorem Turns.fits (h : Turns f data old i s) (c : ι) :
    (∑ x, s.done x) + s.chunkLength data c ≤ ∑ x, (data x).length := by
  rw [← sum_done_update]
  exact Finset.sum_le_sum fun x _ => h.update_le c x

theorem Turns.append (h : Turns f data old i s) (hc : s.done c < (data c).length) {vol : Vol τ}
    (ha : Appended f (((data c).drop (s.done c)).take maxChunk) s.vol vol) :
    Turns f data old i { s with
      vol := vol, done := update s.done c (s.done c + s.chunkLength data c) } := by
  have hlen : (((data c).drop (s.done c)).take maxChunk).length = s.chunkLength data c := by
    rw [length_take, length_drop, Shared.chunkLength, Nat.min_comm]
  obtain ⟨H, hcontent, hH⟩ := h.chunks
  have happ : vol.content i = s.vol.content i ++ ((data c).drop (s.done c)).take maxChunk := by
    rw [← h.inum]
    exact ha.content
  refine ⟨ha.ready, ha.inum.trans h.inum, h.broken, h.update_le c, ?_, ?_,
    H ++ [(c, ((data c).drop (s.done c)).take maxChunk)], ?_, fun x => ?_⟩
  · rw [ha.off, h.off, hlen, sum_done_update, Nat.add_assoc]
  · rw [happ, length_append, h.length, ha.off]
  · rw [happ, hcontent]
    simp
  · by_cases hx : x = c
    · subst hx
      have hne : (data x).drop (s.done x) ≠ [] := by
        rw [Ne, drop_eq_nil_iff]
        omega
      have hnext := hH x
      rw [cut_cons hne, drop_drop] at hnext
      simp only [update_self]
      rw [filter_append, map_append, append_assoc, ← hnext]
      congr 1
      have hdrop :
        (data x).drop (s.done x + s.chunkLength data x) = (data x).drop (s.done x + maxChunk) := by
        rw [Shared.chunkLength]
        rcases Nat.le_total ((data x).length - s.done x) maxChunk with hle | hle
        · rw [Nat.min_eq_left hle, drop_of_length_le (by omega), drop_of_length_le (by omega)]
        · rw [Nat.min_eq_right hle]
      simp [hdrop]
    · simp only [update_of_ne hx]
      rw [filter_append, ← hH x]
      simp [Ne.symm hx]

/-- The rule for the next chunk, whatever panics are accepted. -/
theorem Turns.wp_chunk {E : String → Prop} (h : Turns f data old i s)
    (hc : s.done c < (data c).length) (hmax : old.length + ∑ x, (data x).length ≤ MAXFILE * BSIZE)
      (hwait : s.vol.log.mustWait = false)
    (hspare : (s.vol.opened (me c) f).Spare E ((s.vol.opened (me c) f).newBlocks (s.vol.fileInum f)
      (span (s.vol.file f).off (s.chunkLength data c))))
    (hroom : (s.vol.opened (me c) f).log.RoomOr E
      ((s.vol.opened (me c) f).writeSet (s.vol.file f).ip (s.vol.file f).off
        (s.chunkLength data c))) :
    (writeSection D (me c) f (fun k => (data c).getD (s.done c + k) 0) (s.chunkLength data c)).wp E
      (fun r vol => r = s.chunkLength data c ∧
        Appended f (((data c).drop (s.done c)).take maxChunk) s.vol vol) s.vol := by
  have hpos : 0 < s.chunkLength data c := by
    have hchunk : maxChunk = 6656 := rfl
    rw [Shared.chunkLength]
    omega
  have hfit : (s.vol.file f).off + s.chunkLength data c ≤ MAXFILE * BSIZE := by
    have := h.fits c
    rw [h.off]
    omega
  have hend : (s.vol.file f).off = (s.vol.content (s.vol.fileInum f)).length := by rw [h.inum,
    h.length]
  rw [← map_range_getD]
  exact wp_appendSection D h.ready _ hend hpos hfit hwait hspare hroom

theorem Turns.step (h : Turns f data old i s) (hmax : old.length + ∑ x,
    (data x).length ≤ MAXFILE * BSIZE)
    {a : WriteAct ι} (hs : writeStep D f me data s a = some s') : Turns f data old i s' := by
  cases a with
  | log lg =>
    obtain rfl := Option.some.inj hs
    refine ⟨?_, h.inum, h.broken, h.le, h.off, h.length, h.chunks⟩
    exact ⟨h.ready.sound.relog lg, h.ready.idle, h.ready.ref, h.ready.lock, h.ready.regular⟩
  | chunk c =>
    simp only [writeStep] at hs
    split_ifs at hs with hc
    obtain ⟨r, vol, hrun⟩ := Shared.after_eq_some hs
    obtain ⟨rfl, ha⟩ :=
      of_wp_of_run (h.wp_chunk (E := anyPanic) hc.2 hmax (mustWait_of_run hrun)
      (Or.inr fun _ => trivial) (Or.inr fun _ => trivial)) hrun
    rw [hrun, Shared.after_of_done] at hs
    obtain rfl := Option.some.inj hs
    exact h.append hc.2 ha

theorem Turns.of_reach {vol : Vol τ} (hready : Vol.Ready vol f)
    (hoff : (vol.file f).off = (vol.content (vol.fileInum f)).length)
    (hmax : (vol.content (vol.fileInum f)).length + ∑ c, (data c).length ≤ MAXFILE * BSIZE)
    (h : Reach (writeStep D f me data) anyStep (begun ι vol) s) :
    Turns f data (vol.content (vol.fileInum f)) (vol.fileInum f) s := by
  refine h.invariant ?_ fun x a x' hx _ hstep => hx.step hmax hstep
  refine ⟨hready, rfl, fun _ => rfl, fun _ => Nat.zero_le _, ?_, hoff.symm, [], ?_, fun c => ?_⟩
  · simpa [begun] using hoff
  · simp [begun]
  · simp [begun]

/-- **Writers sharing an open file lose nothing.**  Any calls, by any processes, write chunk by
chunk in any order to a file whose position is its end.  At every moment the position has moved by
the bytes written, and the file holds what it held and then the chunks written so far, those of each
call in order; of a call that is done that is all its data, cut at the chunk size.  A call that is
not done can write its next chunk as soon as the log and the free blocks have room for it. -/
theorem shared_writes_append {vol : Vol τ} (hready : Vol.Ready vol f)
    (hoff : (vol.file f).off = (vol.content (vol.fileInum f)).length)
    (hmax : (vol.file f).off + ∑ c, (data c).length ≤ MAXFILE * BSIZE)
    (h : Reach (writeStep D f me data) anyStep (begun ι vol) s) :
    (s.vol.file f).off = (vol.file f).off + ∑ c, s.done c ∧
      (∃ H : List (ι × List UInt8),
        s.vol.content (vol.fileInum f) = vol.content (vol.fileInum f) ++ (H.map Prod.snd).flatten ∧
        ∀ c, (H.filter fun x => x.1 = c).map Prod.snd <+: cut (data c) ∧
          (s.done c = (data c).length → (H.filter fun x => x.1 = c).map Prod.snd = cut (data c))) ∧
      ∀ c, s.done c < (data c).length → s.vol.log.mustWait = false →
        (s.vol.opened (me c) f).newBlocks (vol.fileInum f)
          (span (s.vol.file f).off (s.chunkLength data c)) ≤
          (s.vol.opened (me c) f).free.length →
        (s.vol.opened (me c) f).log.Room
          ((s.vol.opened (me c) f).writeSet (s.vol.file f).ip (s.vol.file f).off
            (s.chunkLength data c)) →
        ∃ s', writeStep D f me data s (.chunk c) = some s' ∧
          s'.done c = s.done c + s.chunkLength data c := by
  rw [hoff] at hmax
  have hturns := Turns.of_reach hready hoff hmax h
  refine ⟨?_, ?_, fun c hc hwait hnew hroom => ?_⟩
  · rw [hturns.off, hoff]
  · obtain ⟨H, hcontent, hH⟩ := hturns.chunks
    refine ⟨H, hcontent, fun c => ⟨⟨_, hH c⟩, fun hdone => ?_⟩⟩
    have hall := hH c
    rwa [hdone, drop_length, cut_nil, List.append_nil] at hall
  · rw [← hturns.inum] at hnew
    obtain ⟨r, vol', hrun, rfl, -⟩ := (wp_noPanic_iff _).1
      (hturns.wp_chunk (D := D) hc hmax hwait (Or.inl hnew) (Or.inl hroom))
    refine ⟨{ s with
      vol := vol', done := update s.done c (s.done c + s.chunkLength data c) }, ?_, ?_⟩
    · simp only [writeStep]
      rw [if_pos ⟨hturns.broken c, hc⟩, hrun, Shared.after_of_done]
    · simp

/-- **A call on its own.**  A `filewrite` at the end of a regular file that returns has appended all
its data. -/
theorem filewrite_appends {pipewrite : Fin NFILE → (ℕ → UInt8) → ℤ → Prog (Vol τ) ℤ} {p : τ}
    {vol vol' : Vol τ} {l : List UInt8} {r : ℤ} (hready : Vol.Ready vol f)
    (hw : (vol.file f).writable = true) (ht : (vol.file f).ftype = .inode)
    (hoff : (vol.file f).off = (vol.content (vol.fileInum f)).length)
    (hmax : (vol.file f).off + l.length ≤ MAXFILE * BSIZE)
    (hrun : (filewrite D pipewrite p f (fun k => l.getD k 0) l.length).run vol = .done r vol') :
    r = l.length ∧ Vol.Ready vol' f ∧ (vol'.file f).off = (vol.file f).off + l.length ∧
      vol'.content (vol.fileInum f) = vol.content (vol.fileInum f) ++ l := by
  have hcall : (filewrite D pipewrite p f (fun k => l.getD k 0) l.length).run vol =
      ((writeSections D p f (fun k => l.getD k 0) l.length l.length 0).bind fun i =>
        if (i : ℤ) = l.length then .ret (l.length : ℤ) else .ret (-1)).run vol := by
    simp only [filewrite, bind_eq, Prog.look, step_bind, ret_bind, Prog.run, hw, ht]
    rfl
  rw [hcall, run_bind] at hrun
  cases ho : (writeSections D p f (fun k => l.getD k 0) l.length l.length 0).run vol with
  | done n vol₁ =>
    obtain ⟨s, hreach, rfl, rfl, hend⟩ := turns_of_writeSections (s := begun Unit vol)
      (fun _ => p) (fun _ => l) (c := ()) .init rfl (Nat.sub_le _ _) ho
    rw [hoff] at hmax
    have hturns := Turns.of_reach hready hoff (by simpa using hmax) hreach
    have hdone : s.done () = l.length :=
      le_antisymm (hturns.le ()) (hend.resolve_left (by simp [hturns.broken ()]))
    rw [ho] at hrun
    simp only [hdone, if_true] at hrun
    cases hrun
    obtain ⟨H, hcontent, hH⟩ := hturns.chunks
    have hall := hH ()
    rw [hdone, drop_length, cut_nil, List.append_nil, filter_eq_self.2 (by simp)] at hall
    refine ⟨rfl, hturns.ready, ?_, ?_⟩
    · rw [hturns.off, hoff]
      simp [hdone]
    · rw [hcontent, hall, flatten_cut]
  | panicked msg vol₁ => rw [ho] at hrun; cases hrun
  | stuck vol₁ => rw [ho] at hrun; cases hrun

open Mkfs Mkfs.Tool in
/-- Two calls share an empty file, and the first one writes its byte. -/
theorem shared_writes_append_byte : ∃ (vol : Vol Unit) (s : Shared Unit Bool),
    Reach (writeStep noDev 0 (fun _ => ()) fun _ => [7]) anyStep (begun Bool vol) s ∧
      s.done true = 1 ∧
      (s.vol.file 0).off = ∑ c, s.done c := by
  obtain ⟨m, hb, hfree⟩ := built_empty [97]
  have hready := ready_openFirst hb 0
  obtain ⟨hnew, hroom⟩ := room_openFirst hb hfree (show 1 ≤ maxChunk by decide)
  obtain ⟨data, hdata, hc⟩ := hb.file 0 [97] rfl
  cases hdata
  have hoff : ((openFirst m).file 0).off =
    ((openFirst m).content ((openFirst m).fileInum 0)).length := by
    obtain ⟨-, -, -, hnum, hd⟩ := sound_withInode hb.shows.sound (fun _ => rfl)
      (hb.shows.lt_ninodes (show 2 < 200 by decide))
    rw [length_content]
    change 0 = ((withInode m.vol 2).dinode ((withInode m.vol 2).num 0)).size.toNat
    rw [hnum, hd, hc.size]
    rfl
  have hmax : ((openFirst m).file 0).off + ∑ _c : Bool, [(7 : UInt8)].length ≤ MAXFILE * BSIZE := by
    change 0 + ∑ _c : Bool, 1 ≤ MAXFILE * BSIZE
    decide
  have hnone : Reach (writeStep noDev 0 (fun _ => ()) fun _ : Bool => [7]) anyStep
    (begun Bool (openFirst m))
      (begun Bool (openFirst m)) := .init
  obtain ⟨s, hstep, hdone⟩ :=
    (shared_writes_append hready hoff hmax hnone).2.2 true Nat.one_pos rfl hnew hroom
  have hone := hnone.step (a := .chunk true) trivial hstep
  refine ⟨openFirst m, s, hone, hdone, ?_⟩
  rw [(shared_writes_append hready hoff hmax hone).1]
  exact Nat.zero_add _

end Machine

end Xv6.Fs
