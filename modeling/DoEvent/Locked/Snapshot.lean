import DoEvent.Locked.Invariant

/-!
# What stat and info collect

Both calls read under one read lock, so everything they collect was in memory together
when they released it: no writer was inside its section then, and no event was linked and
not yet numbered.
-/

namespace DoEvent.Locked

open Shared Transition

/-! ### Moments -/

/-- Nobody is inside a write section, and the event list is `l`. -/
structure Snapshot (m : State) (l : List Addr) : Prop where
  quiet : ∀ u, (m.pc u).access ≠ .write
  ring : (links m.node).Ring allevents l

/-- An event with id `i` has exactly these values. -/
def Together (m : State) (i : Int32) (v : StatVals) : Prop :=
  ∃ l, Snapshot m l ∧ ∃ e ∈ l, (m.node e).id = i ∧ (events m.node e).vals = v

/-- The ids of the events `l` in a buffer of `num` ints: as many as fit, and -1 after them. -/
def listing (node : Addr → Node) (l : List Addr) (num : Int32) : List Int32 :=
  (l.map fun a => (node a).id).take num.toInt.toNat ++
    List.replicate (num.toInt.toNat - l.length) (-1)

/-- `check` counts the events, and `arr` has their ids unless they were not asked for. -/
def Listed (m : State) (num : Int32) (q : Option ℕ) (arr : List Int32) (check : Int32) : Prop :=
  ∃ l, Snapshot m l ∧ check.toInt = l.length ∧ (q ≠ none → arr = listing m.node l num)

/-- The search of a stat starts over an empty list with a cursor that is not NULL. -/
def StrayCursor (m : State) (t : Task) : Prop :=
  (m.node allevents).next = allevents ∧ ∃ i p v e, m.pc t = .searchFirst (.stat p v) i (some e)

/-- The loop of info has come to its end over a list that its counter cannot count. -/
def Overlong (m : State) (t : Task) : Prop :=
  ∃ l, Snapshot m l ∧ 2147483648 ≤ l.length ∧ ∃ num q arr check, m.pc t = .infoUnlock num q arr check

/-- The states in which the steps of a run are taken. -/
def visited (s : State) (xs : List Action) : List State := observe step (fun s _ => [s]) s xs

theorem infoLoop_listing (node : Addr → Node) (num : Int32) {l : List Addr}
    (hl : l.length < 2147483648) :
    (infoLoop (events node) num true l (infoArray num) 0).1 = listing node l num := by
  by_cases hnum : 0 ≤ num.toInt
  · have h := @infoLoop_array (events node) num 0 l [] (infoArray num) (fun _ => rfl)
      (by rw [List.length_nil]; omega) (by rw [length_infoArray, List.length_nil]; omega)
    rwa [List.nil_append, List.nil_append, length_infoArray, infoArray, List.drop_replicate] at h
  · have hzero : num.toInt.toNat = 0 := by omega
    have hstart : (0 : ℕ) < 2147483648 → (0 : Int32).toInt = ((0 : ℕ) : Int) := fun _ => rfl
    rw [infoLoop_full _ _ _ hstart (by omega) (by omega), infoArray, listing, hzero, Nat.zero_sub,
      List.take_zero, List.replicate_zero, List.append_nil]

/-- A task that reads finds a moment at which nobody writes. -/
theorem Inv.snapshot {s : State} {l : List Addr} {t : Task} (hi : Inv s l)
    (hread : (s.pc t).access = .read) (htodo : (s.pc t).todo = []) : Snapshot s l :=
  ⟨hi.lock.no_writer hread, hi.ring_held htodo (by rw [hread]; decide)⟩

/-! ### Queries under way -/

inductive Query where
  | stat (i : Int32) (p : StatPtrs)
  | info (num : Int32) (q : Option ℕ)

/-- What the call has collected when it leaves the lock. -/
def Query.Answer : Query → Type
  | .stat .. => StatVals
  | .info .. => List Int32 × Int32

def Query.copying : (k : Query) → k.Answer → Pc
  | .stat _ p, v => .statCopy p v
  | .info num q, (arr, check) => .infoCopy num q arr check

def Query.finish (u : UserMem) : (k : Query) → k.Answer → UserMem × Int
  | .stat _ p, v => statFinish u p v
  | .info num q, (arr, check) => infoFinish u num q arr check

def Query.TrueAt (m : State) (t : Task) : (k : Query) → k.Answer → Prop
  | .stat i _, v => Together m i v ∨ StrayCursor m t
  | .info num q, (arr, check) => Listed m num q arr check ∨ Overlong m t

/-- The query that a task has begun and not yet left the lock with. -/
def Pc.asks : Pc → Option Query
  | .statProbe i p _ => some (.stat i p)
  | .searchLock (.stat p _) i _ | .searchFirst (.stat p _) i _ => some (.stat i p)
  | .searchId (.stat p _) i _ | .searchNext (.stat p _) i _ => some (.stat i p)
  | .statUid i p _ _ | .statGid i p _ _ | .statUidFlag i p _ _ | .statGidFlag i p _ _ =>
    some (.stat i p)
  | .statUnlock i p _ _ => some (.stat i p)
  | .infoProbe num q | .infoLock num q | .infoFirst num q => some (.info num q)
  | .infoId num q _ _ _ | .infoNext num q _ _ _ | .infoUnlock num q _ _ => some (.info num q)
  | _ => none

/-- A stat that has found its event has read values that were true at a moment it has seen, or
has searched an empty list. -/
def StatFound (t : Task) (seen : List State) (q : Pc) : Prop :=
  ∀ i p v e, q = .statUnlock i p v (some e) → ∃ n ∈ seen, Together n i v ∨ StrayCursor n t

/-- Where a call that began as `k` is, `u` being the caller's memory at its start and `m`
now. -/
inductive Stage (t : Task) (k : Query) (u : UserMem) (seen : List State) (m : UserMem) (q : Pc) : Prop where
  | asking (hq : q.asks = some k) (hm : m = u) (hfound : StatFound t seen q)
  | copying (a : k.Answer) (hq : q = k.copying a) (hm : m = u) (ha : ∃ n ∈ seen, k.TrueAt n t a)
  | failed (r : Int) (hq : q = .ret r) (hr : r < 0)
  | answered (r : Int) (a : k.Answer) (hq : q = .ret r) (ha : ∃ n ∈ seen, k.TrueAt n t a)
      (hm : k.finish u a = (m, r))
  | done (hq : q = .user)

section
variable {k : Query} {u m : UserMem} {seen : List State} {q p : Pc} {s : State} {l : List Addr}
  {t : Task} {e : Effect}

theorem StatFound.mono (h : StatFound t seen q) (later : List State) : StatFound t (seen ++ later) q := by
  intro i p v e hq
  obtain ⟨n, hn, htrue⟩ := h i p v e hq
  exact ⟨n, List.mem_append_left _ hn, htrue⟩

/-- Nothing has been found unless the search is over. -/
theorem StatFound.of_ne (h : ∀ i p v e, q ≠ .statUnlock i p v (some e)) : StatFound t seen q :=
  fun i p v e hq => absurd hq (h i p v e)

theorem Stage.mono (h : Stage t k u seen m q) (later : List State) : Stage t k u (seen ++ later) m q := by
  have hseen : ∀ a, (∃ n ∈ seen, k.TrueAt n t a) → ∃ n ∈ seen ++ later, k.TrueAt n t a := by
    intro a ha
    obtain ⟨n, hn, ha⟩ := ha
    exact ⟨n, List.mem_append_left _ hn, ha⟩
  cases h with
  | asking hq hm hfound => exact .asking hq hm (hfound.mono later)
  | copying a hq hm ha => exact .copying a hq hm (hseen a ha)
  | failed r hq hr => exact .failed r hq hr
  | answered r a hq ha hm => exact .answered r a hq (hseen a ha) hm
  | done hq => exact .done hq

theorem loopTest_asks (p : StatPtrs) (v : StatVals) (i : Int32) (w : Option Addr) (pos : Addr) :
    ((Lookup.stat p v).loopTest i w pos).asks = some (.stat i p) := by
  rw [Lookup.loopTest]
  split_ifs
  · cases w <;> rfl
  · rfl

theorem infoTest_asks (num : Int32) (q : Option ℕ) (arr : List Int32) (check : Int32) (pos : Addr) :
    (infoTest num q arr check pos).asks = some (.info num q) := by
  rw [infoTest]
  split_ifs <;> rfl

theorem infoTest_ne (num : Int32) (q : Option ℕ) (arr : List Int32) (check : Int32) (pos : Addr)
    (i : Int32) (ptrs : StatPtrs) (v : StatVals) (a : Addr) :
    infoTest num q arr check pos ≠ .statUnlock i ptrs v (some a) := by
  rw [infoTest]
  split_ifs <;> simp

/-- The values are complete with the last load, which is made under the lock. -/
theorem found_gidFlag {i : Int32} {ptrs : StatPtrs} {v : StatVals} {a : Addr} (hsnap : Snapshot s l)
    (hok : PcOk s.node l (.statGidFlag i ptrs v a)) :
    Together s i { v with gidFlag := (s.node a).gidFlag } := by
  obtain ⟨ha, hid, huid, hgid, huidFlag⟩ := hok
  refine ⟨l, hsnap, a, ha, hid, ?_⟩
  simp [events, Event.vals, huid, hgid, huidFlag]

/-- A query goes on, fails, or leaves the lock with an answer that was true at a moment it has
seen. -/
theorem asks_next (hasks : (s.pc t).asks = some k) (hfound : StatFound t seen (s.pc t)) (hi : Inv s l)
    (h : next s t (s.pc t) = some (e, p)) :
    (p.asks = some k ∧ StatFound t (seen ++ [s]) p) ∨ p = .ret (-1) ∨
      ∃ a, p = k.copying a ∧ ∃ n ∈ seen ++ [s], k.TrueAt n t a := by
  have hok := hi.pcs t
  have hsnap := hi.snapshot (t := t)
  have hnow : s ∈ seen ++ [s] := List.mem_append_right _ (List.mem_singleton_self s)
  have hstray : ∀ i p v e, s.pc t = .searchFirst (.stat p v) i (some e) →
      (s.node allevents).next = allevents → StrayCursor s t :=
    fun i p v e hpc hnext => ⟨hnext, i, p, v, e, hpc⟩
  have hover : ∀ num q arr check, s.pc t = .infoUnlock num q arr check → 2147483648 ≤ l.length →
      Overlong s t := fun num q arr check hpc hlen =>
    ⟨l, hi.snapshot (t := t) (by rw [hpc]; rfl) (by rw [hpc]; rfl), hlen, num, q, arr, check, hpc⟩
  generalize s.pc t = q at hasks hfound h hok hsnap hstray hover
  cases q with
  | searchLock x i w =>
    cases x with
    | stat p v =>
      cases h
      exact .inl ⟨hasks, .of_ne (by simp)⟩
    | _ => cases hasks
  | searchFirst x i w =>
    cases x with
    | stat p v =>
      cases h
      refine .inl ⟨(loopTest_asks p v i w _).trans hasks, ?_⟩
      intro i' p' v' e hq
      rw [Lookup.loopTest] at hq
      split at hq
      next hnext =>
        -- The loop ends before its first turn, with the cursor as it was.
        cases hq
        exact ⟨s, hnow, .inr (hstray _ _ _ _ rfl hnext)⟩
      next => cases hq
    | _ => cases hasks
  | searchId x i pos =>
    cases x with
    | stat p v =>
      cases h
      split_ifs <;> exact .inl ⟨hasks, .of_ne (by simp [Lookup.found])⟩
    | _ => cases hasks
  | searchNext x i pos =>
    cases x with
    | stat p v =>
      cases h
      refine .inl ⟨(loopTest_asks p v i none _).trans hasks, .of_ne ?_⟩
      intro i' p' v' e hq
      rw [Lookup.loopTest] at hq
      split at hq <;> cases hq
    | _ => cases hasks
  | statProbe i p junk =>
    cases h
    cases statProbe (s.user t) p with
    | none => exact .inr (.inl rfl)
    | some v =>
      dsimp only
      split_ifs
      · exact .inr (.inl rfl)
      · exact .inl ⟨hasks, .of_ne (by simp)⟩
  | statGidFlag i p v a =>
    cases h
    refine .inl ⟨hasks, ?_⟩
    rintro i' p' v' e ⟨⟩
    exact ⟨s, hnow, .inl (found_gidFlag (hsnap rfl rfl) hok)⟩
  | statUid | statGid | statUidFlag | infoLock | infoId =>
    cases h
    exact .inl ⟨hasks, .of_ne (by simp)⟩
  | statUnlock i p v w =>
    cases h
    cases hasks
    cases w with
    | none => exact .inr (.inl rfl)
    | some a =>
      obtain ⟨n, hn, htrue⟩ := hfound i p v a rfl
      exact .inr (.inr ⟨v, rfl, n, List.mem_append_left _ hn, htrue⟩)
  | infoProbe num q =>
    cases h
    split_ifs
    · exact .inr (.inl rfl)
    · exact .inl ⟨hasks, .of_ne (by simp)⟩
  | infoFirst num q =>
    cases h
    exact .inl ⟨(infoTest_asks num q _ _ _).trans hasks, .of_ne (infoTest_ne num q _ _ _)⟩
  | infoNext num q arr check pos =>
    cases h
    exact .inl ⟨(infoTest_asks num q _ _ _).trans hasks, .of_ne (infoTest_ne num q _ _ _)⟩
  | infoUnlock num q arr check =>
    cases h
    cases hasks
    refine .inr (.inr ⟨(arr, check), rfl, s, hnow, ?_⟩)
    by_cases hlen : l.length < 2147483648
    · -- The moment is this one: the lock is still held, and every id has been read under it.
      refine .inl ⟨l, hsnap rfl rfl, ?_, fun hq => ?_⟩
      · have hcheck : check = _ := (congrArg Prod.snd hok).trans (infoLoop_check ..)
        rw [hcheck, Int32.zero_add, Int32.toInt_ofNat_of_lt hlen]
      · have hsome : q.isSome = true := Option.isSome_iff_ne_none.mpr hq
        have harr := congrArg Prod.fst hok
        rw [hsome, infoLoop_listing _ _ hlen] at harr
        exact harr
    · exact .inr (hover num q arr check rfl (by omega))
  | _ => cases hasks

theorem asks_user {n : State} (hasks : (s.pc t).asks = some k)
    (h : next s t (s.pc t) = some (e, p)) (happly : apply s t e = some n) : n.user = s.user := by
  rw [(apply_keeps happly).user]
  cases e with
  | copyOut m =>
    exfalso
    generalize s.pc t = q at hasks h
    cases q with
    | stores todo x => cases hasks
    | statCopy | infoCopy => cases hasks
    | _ => cases h
  | _ => rfl

theorem copying_next (a : k.Answer) (h : next s t (k.copying a) = some (e, p)) :
    e = .copyOut (k.finish (s.user t) a).1 ∧ p = .ret (k.finish (s.user t) a).2 := by
  cases k with
  | stat i ptrs =>
    cases h
    exact ⟨rfl, rfl⟩
  | info num q =>
    cases h
    exact ⟨rfl, rfl⟩

end

theorem Move.user_of_ne {s s' : State} {x : Action} {t : Task} (h : Move s x s')
    (ht : t ≠ x.task) : s'.user t = s.user t := by
  cases h with
  | call | nomem | kmalloc => rfl
  | run r e p m hrq hnext happly =>
    rw [goto_user, (apply_keeps happly).user]
    cases e with
    | copyOut u => exact Function.update_of_ne ht ..
    | _ => rfl
  | posix | deliver => rfl

theorem Stage.not_alloc {t : Task} {k : Query} {u m : UserMem} {seen : List State} {c : Cred}
    (h : Stage t k u seen m (.openAlloc c)) : False := by
  cases h with
  | asking hq _ _ => cases hq
  | copying a hq _ _ => cases k <;> cases hq
  | failed _ hq _ | answered _ _ hq _ _ | done hq => cases hq

theorem Stage.step {k : Query} {u : UserMem} {seen : List State} {s s' : State} {x : Action} {t : Task}
    {l : List Addr} (h : Stage t k u seen (s.user t) (s.pc t)) (hi : Inv s l)
    (hown : ∀ c j, x ≠ .call t c j) (hstep : Locked.step s x = some s') :
    Stage t k u (seen ++ [s]) (s'.user t) (s'.pc t) := by
  have hmove := Move.of_step hstep
  by_cases ht : t = x.task
  · subst ht
    cases hmove with
    | call r c j hpc => exact absurd rfl (hown c j)
    | nomem r c hpc | kmalloc r c a hpc hfree => exact (Stage.not_alloc (hpc ▸ h)).elim
    | posix | deliver => exact h.mono [s]
    | run r e p m hrq hnext happly =>
      simp only [Action.task] at h ⊢
      rw [goto_user, goto_pc]
      cases h with
      | asking hq hm hfound =>
        rw [asks_user hq hnext happly]
        rcases asks_next hq hfound hi hnext with ⟨hp, hfound⟩ | hp | ⟨a, hp, ha⟩
        · exact .asking hp hm hfound
        · exact .failed (-1) hp (by decide)
        · exact .copying a hp hm ha
      | copying a hq hm ha =>
        rw [hq] at hnext
        obtain ⟨rfl, rfl⟩ := copying_next a hnext
        cases happly
        obtain ⟨n, hn, ha⟩ := ha
        refine .answered _ a rfl ⟨n, List.mem_append_left _ hn, ha⟩ ?_
        dsimp only
        rw [Function.update_self, hm]
      | failed _ hq _ | answered _ _ hq _ _ =>
        rw [hq] at hnext
        cases hnext
        exact .done rfl
      | done hq =>
        rw [hq] at hnext
        cases hnext
  · rw [hmove.user_of_ne ht, hmove.pc_of_ne ht]
    exact h.mono [s]

def queryOf : Call → Option Query
  | .doeventstat i p _ => some (.stat i p)
  | .doeventinfo num q => some (.info num q)
  | _ => none

theorem Stage.entry {t : Task} {k : Query} {c : Cred} {j : Call} (hj : queryOf j = some k) (u : UserMem) :
    Stage t k u [] u (entry c j) := by
  cases j with
  | doeventstat i p junk => exact .asking hj rfl (.of_ne (by simp [Locked.entry]))
  | doeventinfo num q =>
    simp only [Locked.entry]
    split_ifs
    · exact .failed (-1) rfl (by decide)
    · exact .asking hj rfl (.of_ne (by simp))
  | _ => cases hj

/-- A query's answer was true in a state that the system went through during the call. -/
theorem Stage.of_run {node : Addr → Node} {user : Task → UserMem} {xs ys : List Action}
    {s₀ s₁ s₂ : State} {t : Task} {c : Cred} {j : Call} {k : Query} (hj : queryOf j = some k)
    (hboot : Run Locked.step ApartStep (doeventInit node user) xs s₀)
    (hcall : Locked.step s₀ (.call t c j) = some s₁) (hrun : Run Locked.step ApartStep s₁ ys s₂)
    (hown : ∀ c j, Action.call t c j ∉ ys) :
    Stage t k (s₁.user t) (visited s₁ ys) (s₂.user t) (s₂.pc t) := by
  obtain ⟨l, hi⟩ := inv_reachable hboot
  -- The invariant goes into the guard; the induction is over the run after the call.
  cases Move.of_step hcall with
  | call t c j hpc =>
    have hguarded := (hrun.strengthen (fun s => ∃ l, Inv s l) ⟨l, hi.call hpc c j⟩
      fun _ _ _ => Inv.exists_step).restrict (fun x => ∀ c j, x ≠ .call t c j)
        fun x hx c j he => hown c j (he ▸ hx)
    have hbegin : Stage t k ((s₀.goto t (Locked.entry c j)).user t) []
        ((s₀.goto t (Locked.entry c j)).user t) ((s₀.goto t (Locked.entry c j)).pc t) := by
      rw [goto_pc]
      exact .entry hj _
    refine hguarded.observed (fun s _ => [s])
      (fun seen s => Stage t k ((s₀.goto t (Locked.entry c j)).user t) seen (s.user t) (s.pc t)) hbegin ?_
    intro seen s x s' hstage hx hst
    obtain ⟨⟨_, l, hinv⟩, hx⟩ := hx
    exact hstage.step hinv hx hst

/-! ### Fixed runs -/

/-- Only the first `k` tasks act, and none of them closes an event. -/
def noCloses (k : Task) (s : State) (x : Action) : Bool :=
  decide (x.task < k) && (List.range k).all fun t => (s.pc t).closes == none

theorem run_of_noCloses {s s' : State} {xs : List Action} {k : Task}
    (h : steps step (noCloses k) s xs = some s') (hs : s.idleFrom k) :
    Run step ApartStep s xs s' ∧ s'.idleFrom k := by
  refine run_of_idle (fun s _ => (List.range k).all fun t => (s.pc t).closes == none) h hs ?_
  intro s x hi hx t u e ht
  simp only [List.all_eq_true, List.mem_range, beq_iff_eq] at hx
  by_cases hk : t < k
  · rw [hx t hk] at ht
    cases ht
  · rw [hi t (Nat.le_of_not_lt hk)] at ht
    cases ht

/-- A call made after the run `xs` of the first `k` tasks, and the run `ys` after it. -/
theorem call_of_noCloses (xs ys : List Action) (k t : Task) (c : Cred) (j : Call)
    (test : State → State → Bool) (ht : t < k)
    (h : ((steps step (noCloses k) boot xs).bind fun s₀ => (step s₀ (.call t c j)).bind fun s₁ =>
      (steps step (noCloses k) s₁ ys).map (test s₁)) = some true) :
    ∃ s₀ s₁ s₂, Run step ApartStep boot xs s₀ ∧ step s₀ (.call t c j) = some s₁ ∧
      Run step ApartStep s₁ ys s₂ ∧ test s₁ s₂ = true := by
  obtain ⟨s₀, hs₀, h⟩ := Option.bind_eq_some_iff.mp h
  obtain ⟨s₁, hs₁, h⟩ := Option.bind_eq_some_iff.mp h
  obtain ⟨s₂, hs₂, htest⟩ := Option.map_eq_some_iff.mp h
  obtain ⟨hxs, hidle⟩ := run_of_noCloses hs₀ fun _ _ => rfl
  have hcaller : (Action.call t c j).task < k := ht
  exact ⟨s₀, s₁, s₂, hxs, hs₁, (run_of_noCloses hs₂ (hidle.step hcaller hs₁)).1, htest⟩

/-! ### The result -/

theorem Stage.returned {t : Task} {k : Query} {u m : UserMem} {seen : List State} {r : Int}
    (h : Stage t k u seen m (.ret r)) (hr : 0 ≤ r) :
    ∃ a, (∃ n ∈ seen, k.TrueAt n t a) ∧ k.finish u a = (m, r) := by
  cases h with
  | answered r' a hq ha hm =>
    cases hq
    exact ⟨a, ha, hm⟩
  | failed r' hq hneg =>
    cases hq
    omega
  | asking hq _ _ => cases hq
  | copying a hq _ _ => cases k <;> cases hq
  | done hq => cases hq

theorem Stage.collected_stat {t : Task} {i : Int32} {p p' : StatPtrs} {v : StatVals} {u m : UserMem}
    {seen : List State} (h : Stage t (.stat i p) u seen m (.statCopy p' v)) :
    ∃ n ∈ seen, Together n i v ∨ StrayCursor n t := by
  cases h with
  | copying a hq _ ha =>
    cases hq
    exact ha
  | asking hq _ _ => cases hq
  | failed _ hq _ | answered _ _ hq _ _ | done hq => cases hq

theorem Stage.collected_info {t : Task} {num num' : Int32} {q q' : Option ℕ} {arr : List Int32} {check : Int32}
    {u m : UserMem} {seen : List State}
    (h : Stage t (.info num q) u seen m (.infoCopy num' q' arr check)) :
    ∃ n ∈ seen, Listed n num q arr check ∨ Overlong n t := by
  cases h with
  | copying a hq _ ha =>
    cases hq
    exact ha
  | asking hq _ _ => cases hq
  | failed _ hq _ | answered _ _ hq _ _ | done hq => cases hq

/-- Whatever the tasks do with open, close, chown, chmod, stat and info: the values that a
stat takes out of the lock, and those behind a stat that returns 0, are values that an event
with the given id had together at a moment during the call at which nobody was inside a
write section, unless the stat searched an empty list with a cursor that is not NULL.
What info collects are the ids and their number at such a moment, unless there are more than
its counter can count. -/
theorem queries_collect_snapshots (node : Addr → Node) (user : Task → UserMem) (xs ys : List Action)
    (s₀ s₁ s₂ : State) (t : Task) (c : Cred) (k : Call)
    (hboot : Run step ApartStep (doeventInit node user) xs s₀)
    (hcall : step s₀ (.call t c k) = some s₁) (hrun : Run step ApartStep s₁ ys s₂)
    (hown : ∀ c k, Action.call t c k ∉ ys) :
    (∀ i p junk, k = .doeventstat i p junk → (∀ m ∈ visited s₁ ys, ¬ StrayCursor m t) →
      (∀ p' v, s₂.pc t = .statCopy p' v → ∃ m ∈ visited s₁ ys, Together m i v) ∧
      (s₂.pc t = .ret 0 → ∃ v, (∃ m ∈ visited s₁ ys, Together m i v) ∧
        statFinish (s₁.user t) p v = (s₂.user t, 0))) ∧
    (∀ num q, k = .doeventinfo num q → (∀ m ∈ visited s₁ ys, ¬ Overlong m t) →
      (∀ num' q' arr check, s₂.pc t = .infoCopy num' q' arr check →
        ∃ m ∈ visited s₁ ys, Listed m num q arr check) ∧
      (∀ r, s₂.pc t = .ret r → 0 ≤ r → ∃ arr check, (∃ m ∈ visited s₁ ys, Listed m num q arr check) ∧
        infoFinish (s₁.user t) num q arr check = (s₂.user t, r))) := by
  -- One of the moments is right, or one of them is what the condition excludes.
  have hmoment : ∀ {P bad : State → Prop}, (∀ m ∈ visited s₁ ys, ¬ bad m) →
      (∃ m ∈ visited s₁ ys, P m ∨ bad m) → ∃ m ∈ visited s₁ ys, P m := by
    intro P bad hset hv
    obtain ⟨m, hm, htrue⟩ := hv
    exact ⟨m, hm, htrue.resolve_right (hset m hm)⟩
  constructor
  · intro i p junk hk hset
    have hstage : Stage t (.stat i p) (s₁.user t) (visited s₁ ys) (s₂.user t) (s₂.pc t) :=
      .of_run (by rw [hk]; rfl) hboot hcall hrun hown
    constructor
    · intro p' v hpc
      exact hmoment hset (Stage.collected_stat (hpc ▸ hstage))
    · intro hpc
      obtain ⟨v, hv, hm⟩ := Stage.returned (hpc ▸ hstage) (Int.le_refl 0)
      exact ⟨v, hmoment hset hv, hm⟩
  · intro num q hk hset
    have hstage : Stage t (.info num q) (s₁.user t) (visited s₁ ys) (s₂.user t) (s₂.pc t) :=
      .of_run (by rw [hk]; rfl) hboot hcall hrun hown
    constructor
    · intro num' q' arr check hpc
      exact hmoment hset (Stage.collected_info (hpc ▸ hstage))
    · intro r hpc hr
      obtain ⟨a, ha, hm⟩ := Stage.returned (hpc ▸ hstage) hr
      exact ⟨a.1, a.2, hmoment hset ha, hm⟩

/-- Task 1 asks for the owner of event 0 while task 0 changes it. The chown finds the event
before the stat has read it, and has stored the new uid but not the new gid when the stat
copies its values out. -/
def statDuringChown : List Action :=
  runs 1 2 ++ [.call 0 rootCred (.doeventchown 0 5 6 none)] ++ runs 0 4 ++ runs 1 7 ++ runs 0 2 ++
    runs 1 1

/-- Task 1 lists the events while task 0 opens another one, which is linked and not yet
numbered when the ids are copied out. -/
def infoDuringOpen : List Action :=
  runs 1 2 ++ [.call 0 rootCred .doeventopen, .kmalloc 0 (some 2)] ++ runs 0 3 ++ runs 1 4 ++
    runs 0 8 ++ runs 1 1

/-- If task 1 is about to release the lock of info, then 1 is the only event. -/
def listsOne (m : State) : Bool :=
  match m.pc 1 with
  | .infoUnlock .. => (m.node allevents).next == 1 && (m.node 1).prev == allevents &&
      (m.node 1).next == allevents && (m.node allevents).prev == 1
  | _ => true

theorem not_overlong_of_listsOne {m : State} (h : listsOne m = true) : ¬ Overlong m 1 := by
  rintro ⟨l, hsnap, hlen, num, q, arr, check, hpc⟩
  simp only [listsOne, hpc, Bool.and_eq_true, beq_iff_eq] at h
  obtain ⟨⟨⟨hfirst, hback⟩, hlast⟩, htail⟩ := h
  have hring : (links m.node).Ring allevents [1] :=
    ⟨by simp [Links.Joined, links, hfirst, hback, hlast, htail], by decide⟩
  rw [hsnap.ring.unique hring] at hlen
  exact absurd hlen (by decide)

theorem queries_collect_snapshots_midway :
    (∃ s₁ s₂, Run step ApartStep s₁ statDuringChown s₂ ∧ s₂.pc 1 = .ret 0 ∧
      ∃ v, (∃ m ∈ visited s₁ statDuringChown, Together m 0 v) ∧
        statFinish (s₁.user 1) ⟨some 8, some 12, none, none⟩ v = (s₂.user 1, 0)) ∧
    ∃ s₁ s₂, Run step ApartStep s₁ infoDuringOpen s₂ ∧ s₂.pc 1 = .ret 1 ∧
      ∃ arr check, (∃ m ∈ visited s₁ infoDuringOpen, Listed m 2 (some 8) arr check) ∧
        infoFinish (s₁.user 1) 2 (some 8) arr check = (s₂.user 1, 1) := by
  constructor
  · obtain ⟨s₀, s₁, s₂, hxs, hcall, hys, ht⟩ := call_of_noCloses openedRun statDuringChown 2 1 rootCred
      (.doeventstat 0 ⟨some 8, some 12, none, none⟩ (some 7))
      (fun s₁ s₂ => ((visited s₁ statDuringChown).all fun m => (m.node allevents).next != allevents) &&
        s₂.pc 1 == .ret 0) (by decide) (by decide +kernel)
    simp only [Bool.and_eq_true, List.all_eq_true, bne_iff_ne, beq_iff_eq] at ht
    obtain ⟨hset, hret⟩ := ht
    obtain ⟨hstat, _⟩ := queries_collect_snapshots _ _ openedRun statDuringChown s₀ s₁ s₂ 1 rootCred _
      hxs hcall hys (by simp [statDuringChown, runs])
    exact ⟨s₁, s₂, hys, hret, (hstat 0 _ _ rfl fun m hm h => hset m hm h.1).2 hret⟩
  · obtain ⟨s₀, s₁, s₂, hxs, hcall, hys, ht⟩ := call_of_noCloses openedRun infoDuringOpen 2 1 rootCred
      (.doeventinfo 2 (some 8)) (fun s₁ s₂ => (visited s₁ infoDuringOpen).all listsOne && s₂.pc 1 == .ret 1)
      (by decide) (by decide +kernel)
    simp only [Bool.and_eq_true, List.all_eq_true, beq_iff_eq] at ht
    obtain ⟨hone, hret⟩ := ht
    obtain ⟨_, hinfo⟩ := queries_collect_snapshots _ _ openedRun infoDuringOpen s₀ s₁ s₂ 1 rootCred _
      hxs hcall hys (by simp [infoDuringOpen, runs])
    exact ⟨s₁, s₂, hys, hret,
      (hinfo 2 _ rfl fun m hm => not_overlong_of_listsOne (hone m hm)).2 1 hret (by decide)⟩

theorem Snapshot.eq_nil {m : State} {l : List Addr} (h : Snapshot m l)
    (hnext : (m.node allevents).next = allevents) : l = [] := by
  have hfirst : (m.node allevents).next = l.headD allevents := h.ring.next_head
  cases l with
  | nil => rfl
  | cons a l =>
    have ha : a = allevents := hfirst.symm.trans hnext
    exact absurd ha (h.ring.ne_head (List.mem_cons_self ..))

/-- Before the first open a stat whose cursor happens to hold the address 7 returns 0 and
copies out what it had read from the caller's buffer, although there is no event. -/
theorem stat_answers_without_event :
    ¬ ∀ node user xs ys s₀ s₁ s₂ t c i p junk,
      Run step ApartStep (doeventInit node user) xs s₀ →
      step s₀ (.call t c (.doeventstat i p junk)) = some s₁ → Run step ApartStep s₁ ys s₂ →
      (∀ c k, Action.call t c k ∉ ys) → s₂.pc t = .ret 0 →
      ∃ v, ∃ m ∈ visited s₁ ys, Together m i v := by
  intro hclaim
  obtain ⟨s₀, s₁, s₂, hxs, hcall, hys, ht⟩ := call_of_noCloses [] (runs 0 5) 1 0 rootCred
    (.doeventstat 3 ⟨some 8, some 12, none, none⟩ (some 7))
    (fun s₁ s₂ => ((visited s₁ (runs 0 5)).all fun m => (m.node allevents).next == allevents) &&
      s₂.pc 0 == .ret 0) (by decide) (by decide +kernel)
  simp only [Bool.and_eq_true, List.all_eq_true, beq_iff_eq] at ht
  obtain ⟨v, m, hm, l, hsnap, e, he, _⟩ := hclaim _ _ _ _ s₀ s₁ s₂ 0 rootCred 3 _ _ hxs hcall hys
    (by simp [runs]) ht.2
  rw [hsnap.eq_nil (ht.1 m hm)] at he
  cases he

end DoEvent.Locked
