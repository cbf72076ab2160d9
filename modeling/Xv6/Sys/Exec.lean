import Xv6.Param
import Xv6.Sys.Args

/-!
# The arguments of `exec`

`sys_exec` of `crates/syscall/src/sysfile.rs` copies the user's argument vector into an array
of `MAXARG` pointers and calls `exec`, which walks that array up to a null pointer and looks
at its own limit only after it has read an entry.

* `argvLoop_spec` — what the loop leaves in the array.
* `handsOver_iff` — the array `exec` gets ends with a null pointer exactly where the vector is
  not `MAXARG` good strings long.
-/

namespace Xv6.Sys

open Mm List

/-- What `sys_exec` does last: it returns, or it calls `exec` with a path and the array. -/
inductive Handed where
  | returns (rax : ℕ)
  | exec (path : ℕ) (argv : List ℕ)

/-- `uargv + off` on `u64`. -/
def addArg (uargv off : ℕ) : Except String ℕ :=
  if uargv + off < 2 ^ 64 then pure (uargv + off) else throw "attempt to add with overflow"

/-- The loop of `sys_exec` from entry `i` on, with `n` passes left: the array, or `none` where
it returns `!0`. -/
def argvLoop (p : Caller) (uargv : ℕ) :
    (n i : ℕ) → (argv : List ℕ) → Except String (Option (List ℕ))
  | 0, _, argv => pure (some argv)
  | n + 1, i, argv => do
    let addr ← addArg uargv (8 * i)
    let uarg ← fetchaddr p addr
    match uarg with
    | none => pure none
    | some uarg =>
      if uarg = 0 then pure (some (argv.set i 0))
      else if fetchstr p uarg < 0 then pure none
      else argvLoop p uargv n (i + 1) (argv.set i uarg)

/-- `sys_exec`. -/
def sys_exec (p : Caller) : Except String Handed := do
  let path ← fetcharg p 0
  if fetchstr p path < 0 then pure (.returns (2 ^ 64 - 1))
  else
    let uargv ← fetcharg p 1
    let argv ← argvLoop p uargv MAXARG 0 (List.replicate MAXARG 0)
    pure (argv.elim (.returns (2 ^ 64 - 1)) fun argv => .exec path argv)

/-! ## The user's vector -/

/-- Entry `k` of the user's vector lies in its memory and reads `v`. -/
def Entry (p : Caller) (k v : ℕ) : Prop := fetchaddr p (p.tf.rsi + 8 * k) = .ok (some v)

/-- A string that ends inside the memory of the process. -/
def IsString (p : Caller) (a : ℕ) : Prop := ∃ i, a + i < p.sz ∧ byteAt p (a + i) = 0

/-- Entry `k` is a string that `fetchstr` accepts. -/
def Good (p : Caller) (k v : ℕ) : Prop := Entry p k v ∧ v ≠ 0 ∧ 0 ≤ fetchstr p v

/-- An argument array as `exec` reads it: the user's pointers up to the user's `0`, then null. -/
def NullTerminated (p : Caller) (argv : List ℕ) : Prop :=
  argv.length = MAXARG ∧ ∃ n < MAXARG, Entry p n 0 ∧ argv[n]? = some 0 ∧
    ∀ i < n, ∃ v, argv[i]? = some v ∧ Entry p i v ∧ v ≠ 0 ∧ IsString p v

/-- `sys_exec` hands over null-terminated arrays only, and refuses longer vectors. -/
def HandsOver (p : Caller) : Prop :=
  (∀ path argv, sys_exec p = .ok (.exec path argv) → NullTerminated p argv) ∧
  ((∀ i < MAXARG, ∃ v, Entry p i v ∧ v ≠ 0) → sys_exec p = .ok (.returns (2 ^ 64 - 1)))

variable {p : Caller} {n i k a v path : ℕ} {argv out : List ℕ}

theorem Good.isString (h : Good p k v) : IsString p v := by
  obtain ⟨-, i, -, hlt, hzero, -⟩ := fetchstr_nonneg h.2.2
  exact ⟨i, hlt, hzero⟩

theorem Entry.unique (h : Entry p k v) (h' : Entry p k a) : v = a :=
  Option.some.inj (Except.ok.inj (h.symm.trans h'))

theorem Entry.lt (h : Entry p k v) (hsz : p.sz < 2 ^ 64) : p.tf.rsi + 8 * k < 2 ^ 64 := by
  have hle := fetchaddr_eq_some h
  omega

/-- An address that `fetchaddr` accepted is below `2 ^ 64`, so `uargv + off` did not overflow. -/
theorem addArg_eq_ok {b c : ℕ} : addArg a b = .ok c ↔ a + b < 2 ^ 64 ∧ a + b = c := by
  rw [addArg]
  split_ifs with h
  · exact ⟨fun he => ⟨h, Except.ok.inj he⟩, fun he => congrArg _ he.2⟩
  · exact ⟨fun he => (nomatch he), fun he => absurd he.1 h⟩

/-! ## The loop -/

/-- One pass that goes on to the next entry. -/
theorem argvLoop_good (h : Good p i v) (hlt : p.tf.rsi + 8 * i < 2 ^ 64) :
    argvLoop p p.tf.rsi (n + 1) i argv = argvLoop p p.tf.rsi n (i + 1) (argv.set i v) := by
  rw [argvLoop, Lib.bind_ok (addArg_eq_ok.2 ⟨hlt, rfl⟩), Lib.bind_ok h.1]
  simp only [if_neg h.2.1, if_neg (not_lt.2 h.2.2)]

/-- The loop leaves in the array the pointers up to the user's `0`, or every one of them. -/
theorem argvLoop_spec (hlen : i + n ≤ argv.length) (h : argvLoop p p.tf.rsi n i argv =
    .ok (some out)) :
    out.length = argv.length ∧ (∀ k < i, out[k]? = argv[k]?) ∧
    ((∃ j, i ≤ j ∧ j < i + n ∧ Entry p j 0 ∧ out[j]? = some 0 ∧
        ∀ k, i ≤ k → k < j → ∃ v, out[k]? = some v ∧ Good p k v) ∨
      ∀ k, i ≤ k → k < i + n → ∃ v, out[k]? = some v ∧ Good p k v) := by
  induction n generalizing i argv with
  | zero =>
    obtain rfl : argv = out := Option.some.inj (Except.ok.inj h)
    exact ⟨rfl, fun _ _ => rfl, Or.inr fun k h1 h2 => absurd h2 (by omega)⟩
  | succ n ih =>
    rw [argvLoop] at h
    obtain ⟨addr, haddr, h⟩ := Lib.bind_eq_ok.1 h
    obtain ⟨-, rfl⟩ := addArg_eq_ok.1 haddr
    obtain ⟨uarg, hentry, h⟩ := Lib.bind_eq_ok.1 h
    cases uarg with
    | none => cases h
    | some v =>
      simp only at h
      split_ifs at h with hzero hneg
      · -- the user's `0` is at this entry
        obtain rfl : argv.set i 0 = out := Option.some.inj (Except.ok.inj h)
        refine ⟨length_set, fun k hk => getElem?_set_ne hk.ne',
          Or.inl ⟨i, le_rfl, by omega, ?_, ?_, ?_⟩⟩
        · rwa [hzero] at hentry
        · exact getElem?_set_self (by omega)
        · exact fun k h1 h2 => absurd h2 (by omega)
      · cases h
      · have hgood : Good p i v := ⟨hentry, hzero, not_lt.1 hneg⟩
        obtain ⟨hl, hbefore, hafter⟩ := ih (by rw [length_set]; omega) h
        have hi : out[i]? = some v := by
          rw [hbefore i (by omega)]
          exact getElem?_set_self (by omega)
        -- the entry of this pass joins those the rest of the loop accounts for
        have hjoin : ∀ {j}, (∀ k, i + 1 ≤ k → k < j → ∃ v, out[k]? = some v ∧ Good p k v) →
            ∀ k, i ≤ k → k < j → ∃ v, out[k]? = some v ∧ Good p k v := by
          intro j hall k h1 h2
          rcases Nat.eq_or_lt_of_le h1 with rfl | hlt
          · exact ⟨v, hi, hgood⟩
          · exact hall k hlt h2
        refine ⟨hl.trans length_set, fun k hk => ?_, ?_⟩
        · rw [hbefore k (by omega), getElem?_set_ne hk.ne']
        · rcases hafter with ⟨j, h1, h2, hstop, hout, hall⟩ | hall
          · exact .inl ⟨j, by omega, by omega, hstop, hout, hjoin hall⟩
          · exact .inr (hjoin fun k h1 h2 => hall k h1 (by omega))

/-- Over entries that are all there and not `0` the loop does not panic. -/
theorem argvLoop_total (argv : List ℕ) (hsz : p.sz < 2 ^ 64) (hall : ∀ k, i ≤ k → k < i + n → ∃ v,
    Entry p k v ∧ v ≠ 0) :
    ∃ o, argvLoop p p.tf.rsi n i argv = .ok o := by
  induction n generalizing i argv with
  | zero => exact ⟨_, rfl⟩
  | succ n ih =>
    obtain ⟨v, hentry, hne⟩ := hall i le_rfl (by omega)
    by_cases hneg : fetchstr p v < 0
    · refine ⟨none, ?_⟩
      rw [argvLoop, Lib.bind_ok (addArg_eq_ok.2 ⟨hentry.lt hsz, rfl⟩), Lib.bind_ok hentry]
      simp only [if_neg hne, if_pos hneg]
      rfl
    · rw [argvLoop_good ⟨hentry, hne, not_lt.1 hneg⟩ (hentry.lt hsz)]
      exact ih _ fun k h1 h2 => hall k (by omega) (by omega)

/-- Over good strings only, the loop runs to the end of the array. -/
theorem argvLoop_full (argv : List ℕ) (hsz : p.sz < 2 ^ 64) (hall : ∀ k, i ≤ k → k < i + n → ∃ v,
    Good p k v) :
    ∃ out, argvLoop p p.tf.rsi n i argv = .ok (some out) := by
  induction n generalizing i argv with
  | zero => exact ⟨argv, rfl⟩
  | succ n ih =>
    obtain ⟨v, hgood⟩ := hall i le_rfl (by omega)
    rw [argvLoop_good hgood (hgood.1.lt hsz)]
    exact ih _ fun k h1 h2 => hall k (by omega) (by omega)

/-! ## The call -/

/-- The path is a string, and so is each of the first `MAXARG` entries. -/
def Full (p : Caller) : Prop := 0 ≤ fetchstr p p.tf.rdi ∧ ∀ i < MAXARG, ∃ v, Good p i v

theorem sys_exec_of_neg (h : fetchstr p p.tf.rdi < 0) :
    sys_exec p = .ok (.returns (2 ^ 64 - 1)) := by
  change (if fetchstr p p.tf.rdi < 0 then _ else _) = _
  rw [if_pos h]
  rfl

theorem sys_exec_of_loop {o : Option (List ℕ)} (h : 0 ≤ fetchstr p p.tf.rdi)
    (hloop : argvLoop p p.tf.rsi MAXARG 0 (List.replicate MAXARG 0) = .ok o) :
    sys_exec p = .ok (o.elim (.returns (2 ^ 64 - 1)) fun argv => .exec p.tf.rdi argv) := by
  change (if fetchstr p p.tf.rdi < 0 then _ else
    argvLoop p p.tf.rsi MAXARG 0 (List.replicate MAXARG 0) >>= _) = _
  rw [if_neg (not_lt.2 h), Lib.bind_ok hloop]
  rfl

/-- A call of `exec` comes from a loop that went through. -/
theorem loop_of_sys_exec (h : sys_exec p = .ok (.exec path argv)) : 0 ≤ fetchstr p p.tf.rdi ∧
    argvLoop p p.tf.rsi MAXARG 0 (List.replicate MAXARG 0) = .ok (some argv) := by
  by_cases hneg : fetchstr p p.tf.rdi < 0
  · rw [sys_exec_of_neg hneg] at h
    cases h
  · refine ⟨not_lt.1 hneg, ?_⟩
    change (if fetchstr p p.tf.rdi < 0 then _ else
      argvLoop p p.tf.rsi MAXARG 0 (List.replicate MAXARG 0) >>= _) = _ at h
    rw [if_neg hneg] at h
    obtain ⟨o, hloop, h⟩ := Lib.bind_eq_ok.1 h
    cases o with
    | none => cases h
    | some out =>
      cases h
      exact hloop

/-- What `exec` gets is null-terminated, or the whole vector is good strings. -/
theorem nullTerminated_or_full (h : sys_exec p = .ok (.exec path argv)) :
    NullTerminated p argv ∨ Full p := by
  obtain ⟨hpath, hloop⟩ := loop_of_sys_exec h
  obtain ⟨hlen, -, hrest⟩ := argvLoop_spec (by rw [length_replicate, Nat.zero_add]) hloop
  rw [length_replicate] at hlen
  rcases hrest with ⟨j, -, hj, hstop, hout, hall⟩ | hall
  · refine .inl ⟨hlen, j, by omega, hstop, hout, fun i hi => ?_⟩
    obtain ⟨v, hv, hgood⟩ := hall i (Nat.zero_le i) hi
    exact ⟨v, hv, hgood.1, hgood.2.1, hgood.isString⟩
  · refine .inr ⟨hpath, fun i hi => ?_⟩
    obtain ⟨v, -, hgood⟩ := hall i (Nat.zero_le i) (by omega)
    exact ⟨v, hgood⟩

/-- **The argument vector of `exec`.**  For every memory and every vector, `sys_exec` hands over
a null-terminated array and refuses a vector of `MAXARG` or more entries, if and only if the path
and the first `MAXARG` entries are not all strings that `fetchstr` accepts. -/
theorem handsOver_iff (hsz : p.sz < 2 ^ 64) : HandsOver p ↔ ¬Full p := by
  constructor
  · rintro ⟨-, hrefuses⟩ ⟨hpath, hall⟩
    obtain ⟨argv, hloop⟩ := argvLoop_full (List.replicate MAXARG 0) hsz
      (i := 0) (n := MAXARG) fun k _ hk => hall k (by omega)
    have hret := hrefuses fun i hi => (hall i hi).imp fun v hv => ⟨hv.1, hv.2.1⟩
    rw [sys_exec_of_loop hpath hloop] at hret
    cases hret
  · intro hfull
    refine ⟨fun path argv h => (nullTerminated_or_full h).resolve_right hfull, fun hall => ?_⟩
    by_cases hneg : fetchstr p p.tf.rdi < 0
    · exact sys_exec_of_neg hneg
    · obtain ⟨o, hloop⟩ := argvLoop_total (List.replicate MAXARG 0) hsz
        (i := 0) (n := MAXARG) fun k _ hk => hall k (by omega)
      have hret := sys_exec_of_loop (not_lt.1 hneg) hloop
      cases o with
      | none => exact hret
      | some argv =>
        -- the array would end with a null pointer, at an entry that is not `0`
        obtain ⟨-, j, hj, hstop, -⟩ := (nullTerminated_or_full hret).resolve_right hfull
        obtain ⟨v, hv, hne⟩ := hall j hj
        exact absurd (hv.unique hstop) hne

/-! ## Thirty-two arguments -/

/-- A page that starts with `n` pointers to the empty string at `PGSIZE + 256`. -/
def pointerPage (n : ℕ) : Page := fun b => if b < 8 * n ∧ b % 8 = 1 then 0x11 else 0

/-- A process of two pages that passes a vector of `n` pointers. -/
def vectorOf (n : ℕ) : Caller :=
  ⟨⟨PGSIZE + 256, PGSIZE, 0, 0, 0, 0⟩, 2 * PGSIZE, fun t => if t = 5 then pointerPage n
    else onePage t, 1⟩

theorem child_vectorOf {t : ℕ} (ht : t < 5) (i : ℕ) :
    child (vectorOf n).ram t i = child onePage t i := by
  have htable : (vectorOf n).ram t = onePage t := if_neg ht.ne
  rw [child, child, htable]

theorem frame_vectorOf (n : ℕ) : frameOf (pte (vectorOf n).ram (vectorOf n).pgdir 1) = 5 := by
  have hnode : node (vectorOf n).ram 1 (tablePath 1) = some 4 := by
    rw [node, tablePath, Lib.follow_cons, child_vectorOf (by decide), child_onePage (by decide),
      if_pos (by decide),
      Option.bind_some, Lib.follow_cons, child_vectorOf (by decide), child_onePage (by decide),
        if_pos (by decide),
      Option.bind_some, Lib.follow_cons, child_vectorOf (by decide), child_onePage (by decide),
        if_pos (by decide)]
    rfl
  have hlast : (vectorOf n).ram 4 = (Page.fill 0).setEntry 1 (mkEntry 5 7) := rfl
  rw [pte, show (vectorOf n).pgdir = 1 from rfl, hnode]
  simp only [hlast]
  rw [Page.entry_setEntry_self (mkEntry_lt (by decide) (by decide)), frameOf_mkEntry (by decide)]

theorem byteAt_vectorOf {b : ℕ} (hb : b < PGSIZE) :
    byteAt (vectorOf n) (PGSIZE + b) = pointerPage n b := by
  have hpage : pageOf (PGSIZE + b) = 1 := by
    change (4096 + b) / 4096 = 1
    change b < 4096 at hb
    omega
  have hoff : (PGSIZE + b) % PGSIZE = b := by
    rw [Nat.add_mod_left, Nat.mod_eq_of_lt hb]
  rw [byteAt, hpage, hoff, frame_vectorOf]
  rfl

/-- Eight bytes of which only the second may be set. -/
theorem readLE_pointer {f : ℕ → UInt8} {c : Prop} [Decidable c]
    (h : ∀ j < 8, f (a + j) = if c ∧ j = 1 then 0x11 else 0) :
    Lib.readLE f a 8 = if c then PGSIZE + 256 else 0 := by
  have hsplit : Lib.readLE f a 8 =
    (f (a + 0)).toNat + 256 * ((f (a + 1)).toNat + 256 * ((f (a + 2)).toNat +
    256 * ((f (a + 3)).toNat + 256 * ((f (a + 4)).toNat + 256 * ((f (a + 5)).toNat +
    256 * ((f (a + 6)).toNat + 256 * ((f (a + 7)).toNat + 256 * 0))))))) := rfl
  rw [hsplit, h 0 (by decide), h 1 (by decide), h 2 (by decide), h 3 (by decide), h 4 (by decide),
    h 5 (by decide), h 6 (by decide), h 7 (by decide)]
  by_cases hc : c
  · simp [hc]
  · simp [hc]

theorem entry_vectorOf (hk : k < MAXARG) :
    Entry (vectorOf n) k (if k < n then PGSIZE + 256 else 0) := by
  have hk' : k < 32 := hk
  have hout : outside (vectorOf n) (PGSIZE + 8 * k) 8 = .ok false := by
    rw [outside, if_neg (by change ¬8192 ≤ 4096 + 8 * k; omega),
      if_pos (by change 4096 + 8 * k + 8 < 2 ^ 64; omega)]
    exact congrArg _ (decide_eq_false (by change ¬8192 < 4096 + 8 * k + 8; omega))
  have hword :
    Lib.readLE (byteAt (vectorOf n)) (PGSIZE + 8 * k) 8 = if k < n then PGSIZE + 256 else 0 := by
    have hbyte :
      ∀ j < 8, byteAt (vectorOf n) (PGSIZE + 8 * k + j) = if k < n ∧ j = 1 then 0x11 else 0 := by
      intro j hj
      rw [Nat.add_assoc, byteAt_vectorOf (by change 8 * k + j < 4096; omega), pointerPage]
      refine if_congr ?_ rfl rfl
      omega
    exact readLE_pointer hbyte
  change (outside (vectorOf n) (PGSIZE + 8 * k) 8 >>= _) = _
  rw [Lib.bind_ok hout, ← hword]
  rfl

theorem fetchstr_vectorOf (hn : n ≤ MAXARG) : fetchstr (vectorOf n) (PGSIZE + 256) = 0 := by
  have hzero : byteAt (vectorOf n) (PGSIZE + 256) = 0 := by
    rw [byteAt_vectorOf (by decide), pointerPage, if_neg]
    change n ≤ 32 at hn
    omega
  have hfirst : (List.range ((vectorOf n).sz - (PGSIZE + 256))).find?
      (fun i => byteAt (vectorOf n) (PGSIZE + 256 + i) = 0) = some 0 := by
    refine find?_range_eq_some.2 ⟨decide_eq_true hzero,
      mem_range.2 (by change 0 < 8192 - 4352; omega), fun j hj => absurd hj (Nat.not_lt_zero j)⟩
  rw [fetchstr, if_neg (by change ¬(4352 < 4096 ∨ 8192 ≤ 4352); omega), hfirst]
  rfl

/-- A vector of thirty-one pointers is handed over with its null pointer. -/
theorem handsOver_vectorOf : HandsOver (vectorOf 31) := by
  refine (handsOver_iff (by decide)).2 fun hfull => ?_
  obtain ⟨v, hv, hne, -⟩ := hfull.2 31 (by decide)
  exact hne (hv.unique (entry_vectorOf (by decide)))

/-- A vector of thirty-two pointers is not refused, and the array has no null pointer. -/
theorem vector_not_terminated : ∃ argv, sys_exec (vectorOf 32) = .ok (.exec (PGSIZE + 256) argv) ∧
    argv.length = MAXARG ∧ (∀ i < MAXARG, argv[i]? = some (PGSIZE + 256)) ∧
    ∀ i < MAXARG, Entry (vectorOf 32) i (PGSIZE + 256) := by
  have hentry : ∀ i < MAXARG, Entry (vectorOf 32) i (PGSIZE + 256) := by
    intro i hi
    have he := entry_vectorOf (n := 32) hi
    rwa [if_pos hi] at he
  have hstr : fetchstr (vectorOf 32) (PGSIZE + 256) = 0 := fetchstr_vectorOf le_rfl
  have hgood : ∀ i < MAXARG, Good (vectorOf 32) i (PGSIZE + 256) :=
    fun i hi => ⟨hentry i hi, by decide, hstr.ge⟩
  obtain ⟨argv, hloop⟩ := argvLoop_full (p := vectorOf 32) (List.replicate MAXARG 0) (by decide)
    (i := 0) (n := MAXARG) fun k _ hk => ⟨_, hgood k (by omega)⟩
  obtain ⟨hlen, -, hrest⟩ := argvLoop_spec (by rw [length_replicate, Nat.zero_add]) hloop
  refine ⟨argv, sys_exec_of_loop hstr.ge hloop, hlen.trans length_replicate, ?_, hentry⟩
  rcases hrest with ⟨j, -, hj, hstop, -⟩ | hall
  · have hzero := hstop.unique (hentry j (by omega))
    cases hzero
  · intro i hi
    obtain ⟨v, hv, hg⟩ := hall i (Nat.zero_le i) (by omega)
    rw [hv, hg.1.unique (hentry i hi)]

end Xv6.Sys
