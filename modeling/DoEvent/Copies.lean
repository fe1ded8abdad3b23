import DoEvent.Uaccess
import Mathlib.Data.List.GetD

/-!
# What the copy routines leave in user memory

A copy whose range is accessible copies everything and returns 0. A failing
`copy_to_user` has already written the bytes before the first inaccessible one.
-/

namespace DoEvent

/-- The `n` bytes from `p` on lie in pages with the permission `ok`. -/
def Covers (ok : ℕ → Bool) (p n : ℕ) : Prop := ∀ k, p ≤ k → k < p + n → ok (k / pageSize) = true

theorem covers_zero (ok : ℕ → Bool) (p : ℕ) : Covers ok p 0 := fun k hk hlt => by omega

theorem covers_succ {ok : ℕ → Bool} {p n : ℕ} :
    Covers ok p (n + 1) ↔ ok (p / pageSize) = true ∧ Covers ok (p + 1) n := by
  constructor
  · intro h
    exact ⟨h p (by omega) (by omega), fun k hk hlt => h k (by omega) (by omega)⟩
  · rintro ⟨hp, h⟩ k hk hlt
    by_cases hkp : k = p
    · rwa [hkp]
    · exact h k (by omega) (by omega)

theorem copyFromUser_eq_zero {m : UserMem} {p n : ℕ} :
    (copyFromUser m p n).2 = 0 ↔ Covers m.readable p n := by
  induction n generalizing p with
  | zero => exact iff_of_true rfl (covers_zero m.readable p)
  | succ n ih =>
    rw [covers_succ, ← ih, copyFromUser]
    split
    next h => simp [h]
    next h => simp [h]

/-- The memory with the bytes `bs` at `p`. -/
def UserMem.writes (m : UserMem) (p : ℕ) (bs : List UInt8) : UserMem :=
  { m with byte := fun k => if p ≤ k ∧ k < p + bs.length then bs.getD (k - p) 0 else m.byte k }

/-- The bytes that `copy_to_user` writes before the first page without permission. They
depend on the permissions only, and so does the number of bytes left out. -/
def copiedBytes (ok : ℕ → Bool) : ℕ → List UInt8 → List UInt8
  | _, [] => []
  | dst, b :: bs => if ok (dst / pageSize) then b :: copiedBytes ok (dst + 1) bs else []

theorem length_copiedBytes_le (ok : ℕ → Bool) (dst : ℕ) (bs : List UInt8) :
    (copiedBytes ok dst bs).length ≤ bs.length := by
  induction bs generalizing dst with
  | nil => exact Nat.le_refl _
  | cons b bs ih =>
    have hrest := ih (dst + 1)
    rw [copiedBytes]
    split <;> simp only [List.length_cons, List.length_nil] <;> omega

theorem writes_nil (m : UserMem) (p : ℕ) : m.writes p [] = m := by
  simp only [UserMem.writes, List.length_nil]
  congr
  funext k
  rw [if_neg (by omega)]

theorem writes_cons (m : UserMem) (p : ℕ) (b : UInt8) (bs : List UInt8) :
    m.writes p (b :: bs) = UserMem.writes { m with byte := Function.update m.byte p b } (p + 1) bs := by
  simp only [UserMem.writes, List.length_cons, UserMem.mk.injEq, and_true]
  funext k
  by_cases hk : k = p
  · subst hk
    rw [if_pos (by omega), if_neg (by omega), Nat.sub_self, List.getD_cons_zero, Function.update_self]
  · by_cases hin : p + 1 ≤ k ∧ k < p + 1 + bs.length
    · rw [if_pos hin, if_pos (by omega)]
      have hsub : k - p = k - (p + 1) + 1 := by omega
      rw [hsub, List.getD_cons_succ]
    · rw [if_neg hin, if_neg (by omega), Function.update_of_ne hk]

theorem copyToUser_eq (m : UserMem) (dst : ℕ) (bs : List UInt8) :
    copyToUser m dst bs =
      (m.writes dst (copiedBytes m.writable dst bs), bs.length - (copiedBytes m.writable dst bs).length) := by
  induction bs generalizing m dst with
  | nil => rw [copyToUser, copiedBytes, writes_nil, List.length_nil]
  | cons b bs ih =>
    rw [copyToUser, copiedBytes]
    split
    · rw [ih, writes_cons, List.length_cons, List.length_cons, Nat.add_sub_add_right]
    · rw [writes_nil, List.length_cons, List.length_nil, Nat.sub_zero]

theorem copiedBytes_of_covers {ok : ℕ → Bool} {p : ℕ} {bs : List UInt8} (h : Covers ok p bs.length) :
    copiedBytes ok p bs = bs := by
  induction bs generalizing p with
  | nil => rfl
  | cons b bs ih =>
    obtain ⟨hp, hrest⟩ := covers_succ.mp h
    rw [copiedBytes, if_pos hp, ih hrest]

theorem copyToUser_of_covers {m : UserMem} {p : ℕ} {bs : List UInt8}
    (h : Covers m.writable p bs.length) : copyToUser m p bs = (m.writes p bs, 0) := by
  rw [copyToUser_eq, copiedBytes_of_covers h, Nat.sub_self]

/-- A byte is copied if it and all bytes before it can be written. -/
theorem lt_length_copiedBytes {ok : ℕ → Bool} {p j : ℕ} {bs : List UInt8} :
    j < (copiedBytes ok p bs).length ↔ j < bs.length ∧ Covers ok p (j + 1) := by
  induction bs generalizing p j with
  | nil => simp [copiedBytes]
  | cons b bs ih =>
    rw [copiedBytes, covers_succ, List.length_cons]
    cases j with
    | zero =>
      have hrest := covers_zero ok (p + 1)
      split <;> simp_all
    | succ j =>
      split
      next h => rw [List.length_cons, Nat.succ_lt_succ_iff, Nat.succ_lt_succ_iff, ih, and_iff_right h]
      next h => simp [h]

theorem copyToUser_left {m : UserMem} {p : ℕ} {bs : List UInt8} :
    (copyToUser m p bs).2 = 0 ↔ Covers m.writable p bs.length := by
  constructor
  · intro h
    cases hn : bs.length with
    | zero => exact covers_zero _ p
    | succ n =>
      rw [copyToUser_eq] at h
      have hlast : n < (copiedBytes m.writable p bs).length := by
        dsimp only at h
        omega
      exact (lt_length_copiedBytes.mp hlast).2
  · intro h
    rw [copyToUser_of_covers h]

theorem getElem_copiedBytes {ok : ℕ → Bool} {p j : ℕ} {bs : List UInt8}
    (h : j < (copiedBytes ok p bs).length) :
    (copiedBytes ok p bs)[j] = bs.get ⟨j, (lt_length_copiedBytes.mp h).1⟩ := by
  induction bs generalizing p j with
  | nil => cases h
  | cons b bs ih =>
    obtain ⟨hp, _⟩ := covers_succ.mp (lt_length_copiedBytes.mp h).2
    cases j with
    | zero => simp [copiedBytes, hp]
    | succ j =>
      simp only [copiedBytes, hp, if_true, List.length_cons] at h
      simpa [copiedBytes, hp] using ih (p := p + 1) (by omega)

theorem writes_eq_self {m : UserMem} {p : ℕ} {bs : List UInt8} :
    m.writes p bs = m ↔ ∀ j (h : j < bs.length), m.byte (p + j) = bs[j] := by
  constructor
  · intro heq j h
    have hbyte := congrFun (congrArg UserMem.byte heq) (p + j)
    simp only [UserMem.writes] at hbyte
    rw [if_pos (by omega), Nat.add_sub_cancel_left, List.getD_eq_getElem _ _ h] at hbyte
    exact hbyte.symm
  · intro h
    simp only [UserMem.writes]
    congr
    funext k
    split
    next hk =>
      have hj : k - p < bs.length := by omega
      rw [List.getD_eq_getElem _ _ hj, ← h _ hj, Nat.add_sub_cancel' hk.1]
    next => rfl

/-- What a copy writes before it comes to a page without permission is there already. -/
def Rewrites (m : UserMem) (p : ℕ) (bs : List UInt8) : Prop :=
  ∀ j (h : j < bs.length), Covers m.writable p (j + 1) → m.byte (p + j) = bs[j]

theorem copyToUser_same {m : UserMem} {p : ℕ} {bs : List UInt8} :
    (copyToUser m p bs).1 = m ↔ Rewrites m p bs := by
  rw [copyToUser_eq, writes_eq_self]
  constructor
  · intro h j hj hcovers
    have hlt := lt_length_copiedBytes.mpr ⟨hj, hcovers⟩
    rw [h j hlt, getElem_copiedBytes hlt, List.get_eq_getElem]
  · intro h j hj
    obtain ⟨hlt, hcovers⟩ := lt_length_copiedBytes.mp hj
    rw [h j hlt hcovers, getElem_copiedBytes hj, List.get_eq_getElem]

/-! ### Words -/

theorem length_wordBytes (x : UInt32) : (wordBytes x).length = 4 := rfl

theorem join_low_byte (x : UInt32) : (x >>> 8) <<< 8 ||| x.toUInt8.toUInt32 = x := by
  apply UInt32.eq_of_toBitVec_eq
  apply BitVec.eq_of_getLsbD_eq
  intro i hi
  by_cases h : i < 8
  · simp [-UInt32.toUInt32_toUInt8, h, hi]
  · have hadd : 8 + (i - 8) = i := by omega
    simp [-UInt32.toUInt32_toUInt8, h, hi, hadd]

theorem wordOf_wordBytes (x : UInt32) : wordOf (wordBytes x) = x := by
  have h16 : x >>> 16 = x >>> 8 >>> 8 := UInt32.eq_of_toBitVec_eq (by simp)
  have h24 : x >>> 24 = x >>> 16 >>> 8 := UInt32.eq_of_toBitVec_eq (by simp)
  have h32 : x >>> 24 >>> 8 = 0 :=
    UInt32.eq_of_toBitVec_eq (by simpa using BitVec.ushiftRight_eq_zero (Nat.le_refl 32))
  -- The bytes are joined from the highest down, each time with the word shifted so far.
  calc wordOf (wordBytes x)
      = ((((0 : UInt32) <<< 8 ||| (x >>> 24).toUInt8.toUInt32) <<< 8 |||
          (x >>> 16).toUInt8.toUInt32) <<< 8 ||| (x >>> 8).toUInt8.toUInt32) <<< 8 |||
          x.toUInt8.toUInt32 := rfl
    _ = ((x >>> 24 <<< 8 ||| (x >>> 16).toUInt8.toUInt32) <<< 8 |||
          (x >>> 8).toUInt8.toUInt32) <<< 8 ||| x.toUInt8.toUInt32 := by rw [← h32, join_low_byte]
    _ = (x >>> 16 <<< 8 ||| (x >>> 8).toUInt8.toUInt32) <<< 8 ||| x.toUInt8.toUInt32 := by
      rw [h24, join_low_byte]
    _ = x >>> 8 <<< 8 ||| x.toUInt8.toUInt32 := by rw [h16, join_low_byte]
    _ = x := join_low_byte x

/-- The 32-bit word that the user sees at `p`. -/
def wordAt (m : UserMem) (p : ℕ) : UInt32 :=
  wordOf [m.byte p, m.byte (p + 1), m.byte (p + 2), m.byte (p + 3)]

theorem wordAt_congr {m m' : UserMem} {a : ℕ} (h : ∀ j, a ≤ j → j < a + 4 → m.byte j = m'.byte j) :
    wordAt m a = wordAt m' a := by
  rw [wordAt, wordAt, h a (by omega) (by omega), h (a + 1) (by omega) (by omega),
    h (a + 2) (by omega) (by omega), h (a + 3) (by omega) (by omega)]

theorem writes_byte_of_outside (m : UserMem) {p k : ℕ} {bs : List UInt8}
    (h : k < p ∨ p + bs.length ≤ k) : (m.writes p bs).byte k = m.byte k :=
  if_neg (by omega)

theorem wordAt_writes_of_disjoint (m : UserMem) {p q : ℕ} {bs : List UInt8}
    (h : q + 4 ≤ p ∨ p + bs.length ≤ q) : wordAt (m.writes p bs) q = wordAt m q := by
  simp only [wordAt]
  rw [writes_byte_of_outside m (by omega), writes_byte_of_outside m (by omega),
    writes_byte_of_outside m (by omega), writes_byte_of_outside m (by omega)]

theorem wordAt_writes (m : UserMem) (p : ℕ) (x : UInt32) : wordAt (m.writes p (wordBytes x)) p = x := by
  have hbytes : [(m.writes p (wordBytes x)).byte p, (m.writes p (wordBytes x)).byte (p + 1),
      (m.writes p (wordBytes x)).byte (p + 2), (m.writes p (wordBytes x)).byte (p + 3)] =
      wordBytes x := by
    simp [UserMem.writes, wordBytes]
  rw [wordAt, hbytes, wordOf_wordBytes]

theorem writes_append (m : UserMem) (p : ℕ) (bs bs' : List UInt8) :
    m.writes p (bs ++ bs') = (m.writes p bs).writes (p + bs.length) bs' := by
  simp only [UserMem.writes, List.length_append, UserMem.mk.injEq, and_true]
  funext k
  by_cases h : p + bs.length ≤ k ∧ k < p + bs.length + bs'.length
  · rw [if_pos h, if_pos (by omega), List.getD_append_right _ _ _ _ (by omega)]
    congr 1
    omega
  · rw [if_neg h]
    by_cases h' : p ≤ k ∧ k < p + bs.length
    · rw [if_pos h', if_pos (by omega), List.getD_append _ _ _ _ (by omega)]
    · rw [if_neg h', if_neg (by omega)]

/-- An array of words written in one copy. -/
theorem wordAt_writes_flatMap (m : UserMem) (p : ℕ) (xs : List UInt32) (j : ℕ) (h : j < xs.length) :
    wordAt (m.writes p (xs.flatMap wordBytes)) (p + 4 * j) = xs[j] := by
  induction xs generalizing m p j with
  | nil => cases h
  | cons x xs ih =>
    rw [List.flatMap_cons, writes_append, length_wordBytes]
    cases j with
    | zero => rw [wordAt_writes_of_disjoint _ (by omega)]; exact wordAt_writes m p x
    | succ j =>
      have hp : p + 4 * (j + 1) = p + 4 + 4 * j := by omega
      rw [hp, ih _ _ j (by simpa using h), List.getElem_cons_succ]

theorem length_flatMap_wordBytes (xs : List UInt32) :
    (xs.flatMap wordBytes).length = 4 * xs.length := by
  induction xs with
  | nil => rfl
  | cons x xs ih =>
    rw [List.flatMap_cons, List.length_append, ih, length_wordBytes, List.length_cons]
    omega

/-- The words `ws` written one after the other, each at its own address. -/
def UserMem.stores (m : UserMem) : List (ℕ × UInt32) → UserMem
  | [] => m
  | w :: ws => (m.writes w.1 (wordBytes w.2)).stores ws

@[simp] theorem stores_writable (m : UserMem) (ws : List (ℕ × UInt32)) :
    (m.stores ws).writable = m.writable := by
  induction ws generalizing m with
  | nil => rfl
  | cons w ws ih => exact ih _

@[simp] theorem stores_readable (m : UserMem) (ws : List (ℕ × UInt32)) :
    (m.stores ws).readable = m.readable := by
  induction ws generalizing m with
  | nil => rfl
  | cons w ws ih => exact ih _

theorem stores_append (m : UserMem) (ws ws' : List (ℕ × UInt32)) :
    m.stores (ws ++ ws') = (m.stores ws).stores ws' := by
  induction ws generalizing m with
  | nil => rfl
  | cons w ws ih => exact ih _

theorem stores_byte_of_outside (m : UserMem) {ws : List (ℕ × UInt32)} {k : ℕ}
    (h : ∀ w ∈ ws, k < w.1 ∨ w.1 + 4 ≤ k) : (m.stores ws).byte k = m.byte k := by
  induction ws generalizing m with
  | nil => rfl
  | cons w ws ih =>
    rw [UserMem.stores, ih _ fun w' hw' => h w' (List.mem_cons_of_mem _ hw')]
    exact writes_byte_of_outside m (h w (List.mem_cons_self ..))

theorem wordAt_stores_of_disjoint (m : UserMem) {ws : List (ℕ × UInt32)} {q : ℕ}
    (h : ∀ w ∈ ws, q + 4 ≤ w.1 ∨ w.1 + 4 ≤ q) : wordAt (m.stores ws) q = wordAt m q := by
  induction ws generalizing m with
  | nil => rfl
  | cons w ws ih =>
    rw [UserMem.stores, ih _ fun w' hw' => h w' (List.mem_cons_of_mem _ hw')]
    exact wordAt_writes_of_disjoint m (h w (List.mem_cons_self ..))

/-- Four-byte locations that do not overlap. -/
def Apart (p q : ℕ) : Prop := p + 4 ≤ q ∨ q + 4 ≤ p

theorem wordAt_stores (m : UserMem) {ws : List (ℕ × UInt32)}
    (hd : (ws.map Prod.fst).Pairwise Apart) {w : ℕ × UInt32} (hw : w ∈ ws) :
    wordAt (m.stores ws) w.1 = w.2 := by
  induction ws generalizing m with
  | nil => cases hw
  | cons v ws ih =>
    obtain ⟨hv, hd⟩ := List.pairwise_cons.mp hd
    rcases List.mem_cons.mp hw with rfl | hw
    · rw [UserMem.stores, wordAt_stores_of_disjoint]
      · exact wordAt_writes m w.1 w.2
      · exact fun w' hw' => hv w'.1 (List.mem_map_of_mem hw')
    · exact ih _ hd hw

/-! ### The output stages -/

theorem storeWord_of_covers {m : UserMem} {p : Option ℕ} (x : UInt32)
    (h : ∀ a, p = some a → Covers m.writable a 4) :
    storeWord m p x = (m.stores (p.map (·, x)).toList, 0) := by
  cases p with
  | none => rfl
  | some a => exact copyToUser_of_covers (h a rfl)

/-- The output locations of a stat that are not NULL. -/
def StatPtrs.targets (p : StatPtrs) : List ℕ := [p.uid, p.gid, p.uidFlag, p.gidFlag].filterMap id

/-- What a stat with the values `v` writes where. -/
def StatPtrs.outputs (p : StatPtrs) (v : StatVals) : List (ℕ × UInt32) :=
  (p.uid.map (·, v.uid)).toList ++ (p.gid.map (·, v.gid)).toList ++
    (p.uidFlag.map (·, v.uidFlag.toUInt32)).toList ++ (p.gidFlag.map (·, v.gidFlag.toUInt32)).toList

theorem StatPtrs.mem_targets {p : StatPtrs} {a : ℕ} :
    a ∈ p.targets ↔ p.uid = some a ∨ p.gid = some a ∨ p.uidFlag = some a ∨ p.gidFlag = some a := by
  simp [StatPtrs.targets, eq_comm]

theorem StatPtrs.outputs_fst (p : StatPtrs) (v : StatVals) : (p.outputs v).map Prod.fst = p.targets := by
  obtain ⟨u, g, uf, gf⟩ := p
  cases u <;> cases g <;> cases uf <;> cases gf <;> rfl

theorem statFinish_of_covers {m : UserMem} {p : StatPtrs} (v : StatVals)
    (h : ∀ a ∈ p.targets, Covers m.writable a 4) : statFinish m p v = (m.stores (p.outputs v), 0) := by
  have hstore : ∀ ws q x, (∀ a, q = some a → a ∈ p.targets) →
      storeWord (m.stores ws) q x = (m.stores (ws ++ (q.map (·, x)).toList), 0) := by
    intro ws q x hq
    rw [stores_append]
    refine storeWord_of_covers x fun a ha => ?_
    rw [stores_writable]
    exact h a (hq a ha)
  have hu := hstore [] p.uid v.uid fun a ha => StatPtrs.mem_targets.mpr (.inl ha)
  rw [UserMem.stores, List.nil_append] at hu
  have hg := fun ws => hstore ws p.gid v.gid fun a ha => StatPtrs.mem_targets.mpr (.inr (.inl ha))
  have huf := fun ws => hstore ws p.uidFlag v.uidFlag.toUInt32 fun a ha =>
    StatPtrs.mem_targets.mpr (.inr (.inr (.inl ha)))
  have hgf := fun ws => hstore ws p.gidFlag v.gidFlag.toUInt32 fun a ha =>
    StatPtrs.mem_targets.mpr (.inr (.inr (.inr ha)))
  simp only [statFinish, hu, hg, huf, hgf, StatPtrs.outputs]
  rfl

theorem probeWord_ne_zero {m : UserMem} {q : Option ℕ} :
    (probeWord m q).2 ≠ 0 ↔ ∃ a, q = some a ∧ ¬ Covers m.readable a 4 := by
  cases q with
  | none => simp [probeWord]
  | some a => simp [probeWord, copyFromUser_eq_zero]

theorem statProbe_eq_none {m : UserMem} {p : StatPtrs} :
    statProbe m p = none ↔ ∃ a ∈ p.targets, ¬ Covers m.readable a 4 := by
  simp only [statProbe, StatPtrs.mem_targets]
  split
  next h =>
    refine iff_of_true rfl ?_
    rcases h with h | h | h | h <;> obtain ⟨a, ha, hn⟩ := probeWord_ne_zero.mp h <;>
      exact ⟨a, by simp [ha], hn⟩
  next h =>
    refine iff_of_false (by simp) ?_
    rintro ⟨a, ha | ha | ha | ha, hn⟩
    · exact h (.inl (probeWord_ne_zero.mpr ⟨a, ha, hn⟩))
    · exact h (.inr (.inl (probeWord_ne_zero.mpr ⟨a, ha, hn⟩)))
    · exact h (.inr (.inr (.inl (probeWord_ne_zero.mpr ⟨a, ha, hn⟩))))
    · exact h (.inr (.inr (.inr (probeWord_ne_zero.mpr ⟨a, ha, hn⟩))))

theorem readable_of_statProbe {m : UserMem} {p : StatPtrs} {v : StatVals}
    (h : statProbe m p = some v) : ∀ a ∈ p.targets, Covers m.readable a 4 := by
  intro a ha
  by_contra hn
  rw [statProbe_eq_none.mpr ⟨a, ha, hn⟩] at h
  cases h

theorem infoProbeFails_eq_false {m : UserMem} {q : Option ℕ} :
    infoProbeFails m q = false ↔ ∀ a, q = some a → Covers m.readable a 4 := by
  cases q with
  | none => simp [infoProbeFails]
  | some a => simp [infoProbeFails, copyFromUser_eq_zero]

/-! ### Copies that may fail -/

/-- The pieces `ps` written one after the other, each at its own address. -/
def UserMem.copies (m : UserMem) : List (ℕ × List UInt8) → UserMem
  | [] => m
  | p :: ps => (m.writes p.1 p.2).copies ps

theorem copies_append (m : UserMem) (ps ps' : List (ℕ × List UInt8)) :
    m.copies (ps ++ ps') = (m.copies ps).copies ps' := by
  induction ps generalizing m with
  | nil => rfl
  | cons p ps ih => exact ih _

@[simp] theorem copies_writable (m : UserMem) (ps : List (ℕ × List UInt8)) :
    (m.copies ps).writable = m.writable := by
  induction ps generalizing m with
  | nil => rfl
  | cons p ps ih => exact ih _

@[simp] theorem copies_readable (m : UserMem) (ps : List (ℕ × List UInt8)) :
    (m.copies ps).readable = m.readable := by
  induction ps generalizing m with
  | nil => rfl
  | cons p ps ih => exact ih _

/-- Some piece covers the byte `k`. -/
def Touches (ps : List (ℕ × List UInt8)) (k : ℕ) : Prop := ∃ p ∈ ps, p.1 ≤ k ∧ k < p.1 + p.2.length

theorem copies_byte_of_not_touches (m : UserMem) {ps : List (ℕ × List UInt8)} {k : ℕ}
    (h : ¬ Touches ps k) : (m.copies ps).byte k = m.byte k := by
  induction ps generalizing m with
  | nil => rfl
  | cons p ps ih =>
    have hp : ¬ (p.1 ≤ k ∧ k < p.1 + p.2.length) := fun hk => h ⟨p, List.mem_cons_self .., hk⟩
    rw [UserMem.copies, ih _ fun ht => h (ht.imp fun q hq => ⟨List.mem_cons_of_mem _ hq.1, hq.2⟩)]
    exact writes_byte_of_outside m (by omega)

theorem copies_byte_of_touches {m m' : UserMem} {ps : List (ℕ × List UInt8)} {k : ℕ}
    (h : Touches ps k) : (m.copies ps).byte k = (m'.copies ps).byte k := by
  induction ps generalizing m m' with
  | nil =>
    obtain ⟨p, hp, _⟩ := h
    cases hp
  | cons p ps ih =>
    rw [UserMem.copies, UserMem.copies]
    by_cases hrest : Touches ps k
    · exact ih hrest
    · -- no later piece covers `k`, so the first one does
      obtain ⟨q, hq, hk⟩ := h
      rcases List.mem_cons.mp hq with rfl | hq
      · rw [copies_byte_of_not_touches _ hrest, copies_byte_of_not_touches _ hrest]
        simp only [UserMem.writes, if_pos hk]
      · exact absurd ⟨q, hq, hk⟩ hrest

/-- Pieces that do not overlap may be written in either order. -/
theorem copies_comm (m : UserMem) {ps qs : List (ℕ × List UInt8)}
    (h : ∀ k, Touches ps k → ¬ Touches qs k) : (m.copies ps).copies qs = (m.copies qs).copies ps := by
  have hbyte : ((m.copies ps).copies qs).byte = ((m.copies qs).copies ps).byte := by
    funext k
    by_cases hp : Touches ps k
    · rw [copies_byte_of_not_touches _ (h k hp)]
      exact copies_byte_of_touches hp
    · rw [copies_byte_of_not_touches _ hp]
      by_cases hq : Touches qs k
      · exact copies_byte_of_touches hq
      · rw [copies_byte_of_not_touches _ hq, copies_byte_of_not_touches _ hq,
          copies_byte_of_not_touches _ hp]
  have hext : ∀ m m' : UserMem, m.byte = m'.byte → m.readable = m'.readable →
      m.writable = m'.writable → m = m' := by
    intro m m' hb hr hw
    cases m
    cases m'
    simp_all
  exact hext _ _ hbyte (by simp) (by simp)

def wordPieces (ok : ℕ → Bool) (p : Option ℕ) (x : UInt32) : List (ℕ × List UInt8) :=
  (p.map fun a => (a, copiedBytes ok a (wordBytes x))).toList

def wordLeft (ok : ℕ → Bool) (p : Option ℕ) (x : UInt32) : ℕ :=
  p.elim 0 fun a => 4 - (copiedBytes ok a (wordBytes x)).length

theorem storeWord_eq (m : UserMem) (p : Option ℕ) (x : UInt32) :
    storeWord m p x = (m.copies (wordPieces m.writable p x), wordLeft m.writable p x) := by
  cases p with
  | none => rfl
  | some a => exact copyToUser_eq m a (wordBytes x)

/-- What a stat with the values `v` writes where, under the permissions `ok`. -/
def StatPtrs.pieces (p : StatPtrs) (ok : ℕ → Bool) (v : StatVals) : List (ℕ × List UInt8) :=
  wordPieces ok p.uid v.uid ++ wordPieces ok p.gid v.gid ++
    wordPieces ok p.uidFlag v.uidFlag.toUInt32 ++ wordPieces ok p.gidFlag v.gidFlag.toUInt32

def StatPtrs.code (p : StatPtrs) (ok : ℕ → Bool) (v : StatVals) : Int :=
  if wordLeft ok p.uid v.uid ≠ 0 ∨ wordLeft ok p.gid v.gid ≠ 0 ∨
    wordLeft ok p.uidFlag v.uidFlag.toUInt32 ≠ 0 ∨ wordLeft ok p.gidFlag v.gidFlag.toUInt32 ≠ 0
  then -14 else 0

theorem statFinish_eq (m : UserMem) (p : StatPtrs) (v : StatVals) :
    statFinish m p v = (m.copies (p.pieces m.writable v), p.code m.writable v) := by
  simp only [statFinish, storeWord_eq, copies_writable, StatPtrs.pieces, StatPtrs.code, copies_append]

theorem wordLeft_eq_zero {m : UserMem} {q : Option ℕ} {x : UInt32} :
    wordLeft m.writable q x = 0 ↔ ∀ a, q = some a → Covers m.writable a 4 := by
  cases q with
  | none => simp [wordLeft]
  | some a =>
    have hleft := @copyToUser_left m a (wordBytes x)
    rw [copyToUser_eq, length_wordBytes] at hleft
    simpa [wordLeft] using hleft

theorem statFinish_value (m : UserMem) (p : StatPtrs) (v : StatVals) :
    (statFinish m p v).2 = 0 ∨ (statFinish m p v).2 = -14 := by
  simp only [statFinish]
  split
  · exact .inr rfl
  · exact .inl rfl

/-- A stat that copies returns 0 exactly if all its locations can be written. -/
theorem statFinish_eq_zero {m : UserMem} {p : StatPtrs} {v : StatVals} :
    (statFinish m p v).2 = 0 ↔ ∀ a ∈ p.targets, Covers m.writable a 4 := by
  have hall : (∀ a ∈ p.targets, Covers m.writable a 4) ↔ wordLeft m.writable p.uid v.uid = 0 ∧
      wordLeft m.writable p.gid v.gid = 0 ∧ wordLeft m.writable p.uidFlag v.uidFlag.toUInt32 = 0 ∧
      wordLeft m.writable p.gidFlag v.gidFlag.toUInt32 = 0 := by
    simp only [wordLeft_eq_zero, StatPtrs.mem_targets, or_imp, forall_and]
  rw [statFinish_eq, hall]
  dsimp only [StatPtrs.code]
  split
  next h =>
    refine iff_of_false (by decide) ?_
    rintro ⟨hu, hg, huf, hgf⟩
    rcases h with h | h | h | h
    exacts [h hu, h hg, h huf, h hgf]
  next h =>
    simp only [not_or, not_not] at h
    exact iff_of_true rfl h

/-- A stat writes inside its four locations. -/
theorem StatPtrs.touches_pieces {p : StatPtrs} {ok : ℕ → Bool} {v : StatVals} {k : ℕ}
    (h : Touches (p.pieces ok v) k) : ∃ a ∈ p.targets, a ≤ k ∧ k < a + 4 := by
  obtain ⟨q, hq, hk⟩ := h
  have hword : ∀ b x, q ∈ wordPieces ok b x → ∃ a, b = some a ∧ a ≤ k ∧ k < a + 4 := by
    intro b x hb
    cases b with
    | none => cases hb
    | some a =>
      have hqa : q = (a, copiedBytes ok a (wordBytes x)) := List.mem_singleton.mp hb
      have hlen := length_copiedBytes_le ok a (wordBytes x)
      rw [length_wordBytes] at hlen
      rw [hqa] at hk
      exact ⟨a, rfl, hk.1, by dsimp only at hk; omega⟩
  simp only [StatPtrs.pieces, List.mem_append] at hq
  rcases hq with ((hq | hq) | hq) | hq <;> obtain ⟨a, ha, hin⟩ := hword _ _ hq <;>
    exact ⟨a, StatPtrs.mem_targets.mpr (by simp [ha]), hin⟩

/-! ### What a copy leaves behind -/

/-- `m'` is `m` after a copy of the ints `xs` to `p` that stops at the first page without
permission. -/
structure Written (m : UserMem) (p : ℕ) (xs : List Int32) (m' : UserMem) : Prop where
  words : ∀ j x, xs[j]? = some x → Covers m.writable p (4 * (j + 1)) →
    wordAt m' (p + 4 * j) = x.toUInt32
  outside : ∀ k, ¬ (p ≤ k ∧ k < p + 4 * xs.length ∧ Covers m.writable p (k + 1 - p)) →
    m'.byte k = m.byte k
  readable : m'.readable = m.readable
  writable : m'.writable = m.writable

theorem length_intBytes (xs : List Int32) : (intBytes xs).length = 4 * xs.length := by
  have h := length_flatMap_wordBytes (xs.map Int32.toUInt32)
  rwa [List.flatMap_map, List.length_map] at h

theorem wordAt_writes_intBytes (m : UserMem) (p : ℕ) {xs : List Int32} {j : ℕ} {x : Int32}
    (h : xs[j]? = some x) : wordAt (m.writes p (intBytes xs)) (p + 4 * j) = x.toUInt32 := by
  obtain ⟨hj, rfl⟩ := List.getElem?_eq_some_iff.mp h
  have hword := wordAt_writes_flatMap m p (xs.map Int32.toUInt32) j (by rwa [List.length_map])
  rwa [List.flatMap_map, List.getElem_map] at hword

theorem written_copyToUser (m : UserMem) (p : ℕ) (xs : List Int32) :
    Written m p xs (copyToUser m p (intBytes xs)).1 := by
  rw [copyToUser_eq]
  refine ⟨fun j x hx hcovers => ?_, fun k hk => ?_, rfl, rfl⟩
  · -- The bytes of this word have been reached, so they are those of the whole copy.
    rw [← wordAt_writes_intBytes m p hx]
    obtain ⟨hj, _⟩ := List.getElem?_eq_some_iff.mp hx
    refine wordAt_congr fun k hk hlt => ?_
    have hreached : k - p < (copiedBytes m.writable p (intBytes xs)).length := by
      refine lt_length_copiedBytes.mpr ⟨by rw [length_intBytes]; omega, ?_⟩
      exact fun i hi hi' => hcovers i hi (by omega)
    have hlen := length_copiedBytes_le m.writable p (intBytes xs)
    simp only [UserMem.writes]
    rw [if_pos (by omega), if_pos (by omega), List.getD_eq_getElem _ _ hreached,
      getElem_copiedBytes hreached, List.get_eq_getElem, List.getD_eq_getElem]
  · refine if_neg fun hin => hk ?_
    have hreached : k - p < (copiedBytes m.writable p (intBytes xs)).length := by omega
    obtain ⟨hlt, hcovers⟩ := lt_length_copiedBytes.mp hreached
    rw [length_intBytes] at hlt
    exact ⟨hin.1, by omega, by rwa [Nat.sub_add_comm hin.1]⟩

/-- `m'` is `m` after a stat with the values `v`: locations that do not overlap and can be
written have theirs. -/
structure Reported (m : UserMem) (p : StatPtrs) (v : StatVals) (m' : UserMem) : Prop where
  words : p.targets.Pairwise Apart → ∀ w ∈ p.outputs v, Covers m.writable w.1 4 → wordAt m' w.1 = w.2
  outside : ∀ k, (∀ a ∈ p.targets, k < a ∨ a + 4 ≤ k) → m'.byte k = m.byte k
  readable : m'.readable = m.readable
  writable : m'.writable = m.writable

theorem StatPtrs.pieces_eq (p : StatPtrs) (ok : ℕ → Bool) (v : StatVals) :
    p.pieces ok v = (p.outputs v).map fun w => (w.1, copiedBytes ok w.1 (wordBytes w.2)) := by
  obtain ⟨u, g, uf, gf⟩ := p
  cases u <;> cases g <;> cases uf <;> cases gf <;> rfl

theorem wordAt_copies_of_disjoint (m : UserMem) {ps : List (ℕ × List UInt8)} {a : ℕ}
    (h : ∀ p ∈ ps, Apart a p.1 ∧ p.2.length ≤ 4) : wordAt (m.copies ps) a = wordAt m a := by
  refine wordAt_congr fun k hk hlt => copies_byte_of_not_touches m ?_
  rintro ⟨p, hp, hk', hlt'⟩
  obtain ⟨hap, hlen⟩ := h p hp
  rw [Apart] at hap
  omega

theorem wordAt_copies (m : UserMem) {ps : List (ℕ × List UInt8)}
    (hd : (ps.map Prod.fst).Pairwise Apart) (hlen : ∀ p ∈ ps, p.2.length ≤ 4) {a : ℕ} {x : UInt32}
    (hp : (a, wordBytes x) ∈ ps) : wordAt (m.copies ps) a = x := by
  induction ps generalizing m with
  | nil => cases hp
  | cons q ps ih =>
    obtain ⟨hq, hd⟩ := List.pairwise_cons.mp hd
    have hlen' := fun p hp => hlen p (List.mem_cons_of_mem _ hp)
    rcases List.mem_cons.mp hp with rfl | hp
    · rw [UserMem.copies, wordAt_copies_of_disjoint]
      · exact wordAt_writes m a x
      · exact fun p hp => ⟨hq p.1 (List.mem_map_of_mem hp), hlen' p hp⟩
    · exact ih _ hd hlen' hp

theorem reported_statFinish (m : UserMem) (p : StatPtrs) (v : StatVals) :
    Reported m p v (statFinish m p v).1 := by
  rw [statFinish_eq]
  refine ⟨fun hd w hw hcovers => ?_, fun k hk => ?_, copies_readable m _, copies_writable m _⟩
  · have hfst : (p.pieces m.writable v).map Prod.fst = p.targets := by
      rw [StatPtrs.pieces_eq, List.map_map, ← StatPtrs.outputs_fst p v]
      rfl
    refine wordAt_copies m (by rwa [hfst]) ?_ ?_
    · rw [StatPtrs.pieces_eq]
      intro q hq
      obtain ⟨w', _, rfl⟩ := List.mem_map.mp hq
      exact length_copiedBytes_le ..
    · rw [StatPtrs.pieces_eq]
      refine List.mem_map.mpr ⟨w, hw, ?_⟩
      rw [copiedBytes_of_covers hcovers]
  · refine copies_byte_of_not_touches m fun htouch => ?_
    obtain ⟨a, ha, hin⟩ := StatPtrs.touches_pieces htouch
    have hout := hk a ha
    omega

end DoEvent
