import DoEvent.Locked.Abstraction
import DoEvent.Transition.Simulation
import DoEvent.X86.Machine

/-!
# The lock word implements the lock

The word and what the tasks are doing to it are tied to an abstract lock: the word lacks
exactly what the tasks hold and have not given back. So the flags an instruction looks at
tell the task the truth, and a step that gets the lock is a step that takes the abstract one.
The other instructions of the lock are steps in which the calls stand still.
-/

namespace DoEvent.X86

open Shared Transition

def State.weight (s : State) (t : Task) : ℕ := heldWeight (s.pc t).access + (s.slow t).weight

structure Tied (s : State) (k : RwLock Task) : Prop where
  agrees : k.Agrees fun t => (s.pc t).access
  lacks : ∃ n, Total s.weight n ∧ Lacks s.lock n
  slow : ∀ t, s.slow t = .out ∨ (s.slow t).asksFor = asksFor (s.pc t)

/-- Not an instruction with which the task fails to get the lock. -/
def succeeds (s : State) : Action → Bool
  | .run t => (attempt (asksFor (s.pc t)) s.lock (s.slow t)).2 = .out
  | _ => true

/-- The steps of the calls that an action is: none for a task that does not get the lock. -/
def callSteps : State → Action → List Action := kept succeeds

/-- The history does not depend on the lock. -/
def callEvents (s : State) : Action → List (HistoryEvent Task (Cred × Call) (Int × UserMem)) :=
  Locked.callEvents (s.withLock (.shared []))

section
variable {s s' : State} {m : Locked.State} {k k' : RwLock Task} {t : Task} {p : Locked.Pc}
  {e : Locked.Effect} {x : Action} {n v : ℕ}

/-! ### Weights -/

theorem Tied.slow_out (h : Tied s k) (ha : asksFor (s.pc t) = .none) : s.slow t = .out := by
  rcases h.slow t with hout | hasks
  · exact hout
  · rw [ha] at hasks
    cases hs : s.slow t <;> rw [hs] at hasks <;> first | rfl | cases hasks

theorem Tied.weight_le (h : Tied s k) (t : Task) : s.weight t ≤ bias := by
  unfold State.weight
  by_cases ha : asksFor (s.pc t) = .none
  · rw [h.slow_out ha]
    cases (s.pc t).access <;> decide
  · rw [access_of_asksFor ha]
    cases s.slow t <;> decide

theorem weight_of_not_busy (h : ¬ s.Busy t) : s.weight t = 0 := by
  rw [State.Busy, not_or, not_not, not_not] at h
  rw [State.weight, h.1, h.2]
  rfl

/-- On `129` CPUs at most, a task that has taken nothing from the word sees at most 128
others that have. -/
theorem Tied.total_le (h : Tied s k) (hok : OnCpus n s x) (hn : n ≤ 129)
    (hzero : s.weight x.task = 0) {total : ℕ} (htotal : Total s.weight total) :
    total ≤ 128 * bias := by
  obtain ⟨F, hcard, hmem, hbusy⟩ := hok
  have hcovers : Shared.Covers (F.erase x.task) s.weight := by
    intro u hu
    by_cases hx : u = x.task
    · rw [hx]
      exact hzero
    · exact weight_of_not_busy fun hb => hu (Finset.mem_erase.mpr ⟨hx, hbusy u hb⟩)
  have herase := Finset.card_erase_of_mem hmem
  exact htotal.le_mul hcovers (by omega) h.weight_le

/-- A step of `t` moves the word by as much as it moves the weight of `t`. -/
theorem Tied.lacks_update (h : Tied s k) (hweight : s'.weight = Function.update s.weight t v)
    (hlock : ∀ others, Lacks s.lock (others + s.weight t) → Lacks s'.lock (others + v)) :
    ∃ n, Total s'.weight n ∧ Lacks s'.lock n := by
  obtain ⟨n, htotal, hn⟩ := h.lacks
  obtain ⟨m, hm, hsum⟩ := htotal.update t v
  have hle := htotal.le t
  refine ⟨m, hweight ▸ hm, ?_⟩
  have hothers := hlock (n - s.weight t) (by rwa [Nat.sub_add_cancel hle])
  have hm' : n - s.weight t + v = m := by omega
  rwa [hm'] at hothers

/-! ### Steps of the calls -/

/-- A step that leaves the word alone and keeps the abstract lock keeps the tie. -/
theorem Tied.of_same (h : Tied s k) (hagrees : k.Agrees fun u => (s'.pc u).access)
    (hlock : s'.lock = s.lock) (hslow : s'.slow = s.slow)
    (hpc : ∀ u, s.slow u ≠ .out → s'.pc u = s.pc u) : Tied s' k := by
  have hacc := h.agrees.unique hagrees
  have hweight : s'.weight = s.weight := by
    funext u
    rw [State.weight, State.weight, hslow, ← congrFun hacc u]
  refine ⟨hagrees, ?_, fun u => ?_⟩
  · rw [hweight, hlock]
    exact h.lacks
  · rw [hslow]
    by_cases hu : s.slow u = .out
    · exact .inl hu
    · rw [hpc u hu]
      exact h.slow u

theorem step_withLock (hx : ∀ t, x ≠ .run t) :
    Locked.step (s.withLock k) x =
      (Locked.step (s.withLock (.shared [])) x).map fun m => { m with lock := k } := by
  cases x with
  | run t => exact absurd rfl (hx t)
  | posix t => rfl
  | call t c j =>
    by_cases hpc : s.pc t = .user <;> simp [Locked.step, State.withLock, hpc, Locked.State.goto]
  | deliver t =>
    by_cases hpc : s.pc t = .user <;> simp [Locked.step, State.withLock, hpc, Locked.State.setSched]
  | kmalloc t r =>
    simp only [Locked.step, State.withLock]
    generalize s.pc t = q
    cases q with
    | openAlloc c =>
      cases r with
      | none => rfl
      | some a =>
        by_cases ha : s.inUse a = true <;> simp [Locked.kmallocStep, ha, Locked.State.goto]
    | _ => rfl

/-- A task that does anything but run on is not on its way to the lock. -/
theorem pc_of_asking {m m' : Locked.State} (h : Locked.Move m x m')
    (hx : ∀ t, x ≠ .run t) (hu : asksFor (m.pc t) ≠ .none) : m'.pc t = m.pc t := by
  have hother : t ≠ x.task → m'.pc t = m.pc t := h.pc_of_ne
  cases h with
  | run r => exact absurd rfl (hx r)
  | posix | deliver => rfl
  | call r c j hpc | nomem r c hpc | kmalloc r c a hpc hfree =>
    refine hother ?_
    intro he
    have hpc' : m.pc t = _ := (congrArg m.pc he).trans hpc
    rw [hpc'] at hu
    exact hu rfl

theorem Tied.not_run (h : Tied s k) (hx : ∀ t, x ≠ .run t) (hst : step s x = some s') :
    ∃ k', Run Locked.step Locked.AnyStep (s.withLock k) (callSteps s x) (s'.withLock k') ∧
      Tied s' k' := by
  have hdef : step s x = (Locked.step (s.withLock (.shared [])) x).map s.ofCalls := by
    cases x with
    | run t => exact absurd rfl (hx t)
    | _ => rfl
  have hacts : callSteps s x = [x] := by
    refine kept_of_true ?_
    cases x with
    | run t => exact absurd rfl (hx t)
    | _ => rfl
  rw [hdef] at hst
  obtain ⟨m, hm, rfl⟩ := Option.map_eq_some_iff.mp hst
  have hcalls : Locked.step (s.withLock k) x = some ((s.ofCalls m).withLock k) := by
    rw [step_withLock hx, hm]
    rfl
  refine ⟨k, ?_, h.of_same (Locked.agrees_step h.agrees hcalls) rfl rfl fun u hu => ?_⟩
  · rw [hacts]
    exact .single trivial hcalls
  · exact pc_of_asking (Locked.Move.of_step hcalls) hx fun ha => hu (h.slow_out ha)

/-! ### Steps of a task that runs -/

/-- The step of the calls that goes with an effect. -/
theorem calls_step (hrq : (s.sched t).onRq = true)
    (hnext : Locked.next (s.withLock (.shared [])) t (s.pc t) = some (e, p))
    (happly : Locked.apply (s.withLock k) t e = some m) :
    Locked.step (s.withLock k) (.run t) = some (m.goto t p) := by
  have hnext' : Locked.next (s.withLock k) t ((s.withLock k).pc t) = some (e, p) :=
    next_withLock.trans hnext
  have hrq' : ((s.withLock k).sched t).onRq = true := hrq
  rw [Locked.step, if_pos hrq', hnext', Option.bind_some, happly, Option.map_some]

theorem callSteps_run (h : Tied s k) (ha : asksFor (s.pc t) = .none) :
    callSteps s (.run t) = [.run t] := by
  refine kept_of_true ?_
  rw [succeeds, ha, h.slow_out ha]
  rfl

theorem Tied.run_plain (h : Tied s k) (he : e.isLock = false) (hrq : (s.sched t).onRq = true)
    (hnext : Locked.next (s.withLock (.shared [])) t (s.pc t) = some (e, p))
    (happly : Locked.apply (s.withLock (.shared [])) t e = some m) :
    Run Locked.step Locked.AnyStep (s.withLock k) (callSteps s (.run t))
        (((s.ofCalls m).goto t p).withLock k) ∧ Tied ((s.ofCalls m).goto t p) k := by
  have ha : asksFor (s.pc t) = .none := by
    rw [next_asksFor hnext]
    cases e <;> first | rfl | cases he
  have happly' : Locked.apply (s.withLock k) t e = some { m with lock := k } := by
    rw [apply_withLock he, happly]
    rfl
  have hcalls : Locked.step (s.withLock k) (.run t) = some (((s.ofCalls m).goto t p).withLock k) :=
    calls_step hrq hnext happly'
  refine ⟨?_, h.of_same (Locked.agrees_step h.agrees hcalls) rfl rfl fun u hu => ?_⟩
  · rw [callSteps_run h ha]
    exact .single trivial hcalls
  · have hut : u ≠ t := fun he => hu (he ▸ h.slow_out ha)
    exact (Locked.Move.of_step hcalls).pc_of_ne hut

/-- A release gives back what was held. -/
theorem Tied.run_unlock (h : Tied s k) {lock : Word} (hrq : (s.sched t).onRq = true)
    (hnext : Locked.next (s.withLock (.shared [])) t (s.pc t) = some (e, p))
    (happly : Locked.apply (s.withLock k) t e = some (s.withLock k'))
    (ha : asksFor (s.pc t) = .none) (hp : p.access = .none)
    (hlock : ∀ others, Lacks s.lock (others + heldWeight (s.pc t).access) → Lacks lock others) :
    Run Locked.step Locked.AnyStep (s.withLock k) (callSteps s (.run t))
        (({ s with lock := lock }.goto t p).withLock k') ∧ Tied ({ s with lock := lock }.goto t p) k' := by
  have hcalls : Locked.step (s.withLock k) (.run t) =
      some (({ s with lock := lock }.goto t p).withLock k') := calls_step hrq hnext happly
  have hout := h.slow_out ha
  have hpc : ∀ u, u ≠ t → ({ s with lock := lock }.goto t p).pc u = s.pc u := fun u hu =>
    Function.update_of_ne hu ..
  have hself : ({ s with lock := lock }.goto t p).pc t = p := Function.update_self ..
  refine ⟨?_, Locked.agrees_step h.agrees hcalls, h.lacks_update (t := t) (v := 0) ?_ ?_, ?_⟩
  · rw [callSteps_run h ha]
    exact .single trivial hcalls
  · funext u
    by_cases hu : u = t
    · subst hu
      rw [Function.update_self, State.weight, hself, hp]
      change 0 + (s.slow u).weight = 0
      rw [hout]
      rfl
    · rw [Function.update_of_ne hu, State.weight, hpc u hu]
      rfl
  · intro others hothers
    rw [State.weight, hout] at hothers
    exact hlock others hothers
  · intro u
    by_cases hu : u = t
    · rw [hu]
      exact .inl hout
    · rw [hpc u hu]
      exact h.slow u

/-- A task that gets the lock finds the abstract one free for it. -/
theorem Tied.can_lock (h : Tied s k) (hok : OnCpus n s (.run t)) (hn : n ≤ 129)
    (he : effectAsks e ≠ .none) (ha : asksFor (s.pc t) = effectAsks e)
    (hout : (attempt (effectAsks e) s.lock (s.slow t)).2 = .out) :
    ∃ k', Locked.apply (s.withLock k) t e = some (s.withLock k') := by
  have hzero : s.weight t = 0 := by
    rw [State.weight, access_of_asksFor (ha ▸ he), weight_of_attempt_out hout]
    rfl
  obtain ⟨total, htotal, hlacks⟩ := h.lacks
  have hslow := h.slow t
  rw [ha] at hslow
  obtain ⟨hlt, hnone⟩ := attempt_out he hslow hlacks (h.total_le hok hn hzero htotal) hout
  have hheld : ∀ u, heldWeight (s.pc u).access ≤ total := fun u =>
    (Nat.le_add_right _ _).trans (htotal.le u)
  cases e with
  | readLock =>
    cases hk : k with
    | shared holders => exact ⟨_, rfl⟩
    | exclusive w =>
      -- A writer has taken the bias.
      have hw : (s.pc w).access = .write := by
        have hagrees := h.agrees
        rw [hk] at hagrees
        exact (hagrees w).trans (if_pos rfl)
      have hbias := hheld w
      rw [hw] at hbias
      exact absurd hbias (Nat.not_le.mpr hlt)
  | writeLock =>
    have hfree : k = .shared [] := by
      refine h.agrees.eq_free fun u => ?_
      have hu := hheld u
      rw [hnone rfl] at hu
      cases hacc : (s.pc u).access with
      | none => rfl
      | _ =>
        rw [hacc] at hu
        exact absurd hu (by decide)
    rw [hfree]
    exact ⟨_, rfl⟩
  | _ => exact absurd rfl he

/-- What the instruction does to the tie, whether the task gets the lock or not. -/
theorem Tied.lacks_attempt (h : Tied s k) {a : Access} (hasks : asksFor (s.pc t) = a) (ha : a ≠ .none)
    (hp : p.access = a) :
    ∃ n, Total (s.try t p (attempt a s.lock (s.slow t))).weight n ∧
      Lacks (s.try t p (attempt a s.lock (s.slow t))).lock n := by
  have hslow := h.slow t
  rw [hasks] at hslow
  have hnone : (s.pc t).access = .none := access_of_asksFor (hasks ▸ ha)
  refine h.lacks_update (t := t) (v := attemptWeight a (attempt a s.lock (s.slow t)).2) ?_ ?_
  · funext u
    simp only [State.weight, State.try]
    by_cases hu : u = t
    · subst hu
      rw [Function.update_self, Function.update_self, attemptWeight]
      split
      next hout =>
        rw [Function.update_self, hp, hout]
        rfl
      next =>
        rw [hnone]
        exact Nat.zero_add _
    · rw [Function.update_of_ne hu, Function.update_of_ne hu]
      split
      · rw [Function.update_of_ne hu]
        rfl
      · rfl
  · intro others hothers
    rw [State.weight, hnone] at hothers
    refine attempt_lacks ha hslow ?_
    rwa [heldWeight, Nat.zero_add] at hothers

theorem Tied.run_attempt (h : Tied s k) (hok : OnCpus n s (.run t)) (hn : n ≤ 129)
    (hrq : (s.sched t).onRq = true)
    (hnext : Locked.next (s.withLock (.shared [])) t (s.pc t) = some (e, p))
    (he : effectAsks e ≠ .none) (hp : p.access = effectAsks e) :
    ∃ k', Run Locked.step Locked.AnyStep (s.withLock k) (callSteps s (.run t))
        ((s.try t p (attempt (effectAsks e) s.lock (s.slow t))).withLock k') ∧
      Tied (s.try t p (attempt (effectAsks e) s.lock (s.slow t))) k' := by
  have ha := next_asksFor hnext
  have hlacks := h.lacks_attempt ha he hp
  have hothers : ∀ u, u ≠ t → (s.try t p (attempt (effectAsks e) s.lock (s.slow t))).pc u = s.pc u ∧
      (s.try t p (attempt (effectAsks e) s.lock (s.slow t))).slow u = s.slow u := by
    intro u hu
    simp only [State.try]
    refine ⟨?_, Function.update_of_ne hu ..⟩
    split
    · exact Function.update_of_ne hu ..
    · rfl
  have hsucceeds : succeeds s (.run t) = decide ((attempt (effectAsks e) s.lock (s.slow t)).2 = .out) := by
    rw [succeeds, ha]
  by_cases hout : (attempt (effectAsks e) s.lock (s.slow t)).2 = .out
  · obtain ⟨k', happly⟩ := h.can_lock hok hn he ha hout
    have hcalls : Locked.step (s.withLock k) (.run t) =
        some ((s.try t p (attempt (effectAsks e) s.lock (s.slow t))).withLock k') := by
      rw [calls_step hrq hnext happly]
      simp only [State.try, State.withLock, Locked.State.goto, if_pos hout]
    rw [callSteps, kept_of_true (by rw [hsucceeds, decide_eq_true hout])]
    refine ⟨k', .single trivial hcalls, Locked.agrees_step h.agrees hcalls, hlacks, fun u => ?_⟩
    by_cases hu : u = t
    · refine .inl ?_
      rw [hu]
      exact (Function.update_self ..).trans hout
    · rw [(hothers u hu).1, (hothers u hu).2]
      exact h.slow u
  · -- The calls stand still.
    have hsame : (s.try t p (attempt (effectAsks e) s.lock (s.slow t))).pc = s.pc := by
      simp only [State.try, if_neg hout]
    have hstill : (s.try t p (attempt (effectAsks e) s.lock (s.slow t))).withLock k = s.withLock k := by
      simp only [State.withLock, hsame]
      rfl
    rw [callSteps, kept_of_false (by rw [hsucceeds, decide_eq_false hout])]
    refine ⟨k, hstill ▸ .nil _, ?_, hlacks, fun u => ?_⟩
    · rw [hsame]
      exact h.agrees
    · by_cases hu : u = t
      · subst hu
        have hslow := h.slow u
        rw [ha] at hslow
        refine .inr ?_
        rw [hsame, ha]
        change (Function.update s.slow u _ u).asksFor = _
        rw [Function.update_self]
        exact attempt_asksFor he hslow hout
      · rw [(hothers u hu).1, (hothers u hu).2]
        exact h.slow u

/-- One instruction. -/
theorem Tied.simulates (h : Tied s k) (hok : OnCpus n s x) (hn : n ≤ 129) (hst : step s x = some s') :
    ∃ k', Run Locked.step Locked.AnyStep (s.withLock k) (callSteps s x) (s'.withLock k') ∧
      Tied s' k' := by
  by_cases hx : ∀ t, x ≠ .run t
  · exact h.not_run hx hst
  · obtain ⟨t, rfl⟩ : ∃ t, x = .run t := by simpa using hx
    simp only [step] at hst
    split at hst
    next hrq =>
      obtain ⟨r, hnext, hex⟩ := Option.bind_eq_some_iff.mp hst
      obtain ⟨e, p⟩ := r
      have hshift := (Locked.next_passes hnext).shifts
      cases e with
      | readLock =>
        cases hex
        exact h.run_attempt hok hn hrq hnext (by decide) hshift.2
      | writeLock =>
        cases hex
        exact h.run_attempt hok hn hrq hnext (by decide) hshift.2
      | readUnlock =>
        cases hex
        have hread : (s.pc t).access = .read := hshift.1
        refine ⟨_, h.run_unlock hrq hnext rfl (next_asksFor hnext) hshift.2 fun others ho => ?_⟩
        rw [hread] at ho
        exact ho.add_one
      | writeUnlock =>
        cases hex
        have hwrite : (s.pc t).access = .write := hshift.1
        refine ⟨_, h.run_unlock hrq hnext rfl (next_asksFor hnext) hshift.2 fun others ho => ?_⟩
        rw [hwrite] at ho
        exact ho.add_bias
      | _ =>
        simp only [execute] at hex
        obtain ⟨m, happly, rfl⟩ := Option.map_eq_some_iff.mp hex
        exact ⟨k, h.run_plain rfl hrq hnext happly⟩
    next => cases hst

theorem Tied.init (node : Addr → Locked.Node) (user : Task → UserMem) :
    Tied (doeventInit node user) (.shared []) where
  agrees := RwLock.agrees_free
  lacks := ⟨0, total_zero, rfl⟩
  slow := fun _ => .inl rfl

end

/-! ### Every interleaving of the instructions -/

section
variable {s s' : State} {k : RwLock Task} {x : Action} {xs : List Action} {n : ℕ} {m : Locked.State}

/-- A task that fails to get the lock is not about to return. -/
theorem Tied.notes {ok : Locked.State → Action → Prop} (h : Tied s k)
    (hrun : Run Locked.step ok (s.withLock k) (callSteps s x) m) :
    observe Locked.step Locked.callEvents (s.withLock k) (callSteps s x) = callEvents s x := by
  cases hx : succeeds s x with
  | true =>
    rw [callSteps, kept_of_true hx] at hrun ⊢
    cases hrun with
    | cons _ hst _ =>
      rw [observe, hst, Option.elim_some, observe, List.append_nil]
      cases x <;> rfl
  | false =>
    rw [callSteps, kept_of_false hx]
    cases x with
    | run t =>
      simp only [callEvents, Locked.callEvents, State.withLock]
      split
      next r hpc =>
        have ha : asksFor (s.pc t) = .none := by rw [hpc]; rfl
        rw [succeeds, ha, h.slow_out ha] at hx
        cases hx
      next => rfl
    | _ => cases hx

/-- A guard that does not look at the lock passes from the instructions to the calls. -/
theorem Tied.run {ok : State → Action → Prop} {ok' : Locked.State → Action → Prop} (h : Tied s k)
    (hn : n ≤ 129) (hok : ∀ s x, ok s x → OnCpus n s x ∧ ∀ k, ok' (s.withLock k) x)
    (hrun : Run step ok s xs s') :
    ∃ k', Run Locked.step ok' (s.withLock k) (observe step callSteps s xs) (s'.withLock k') ∧
      observe Locked.step Locked.callEvents (s.withLock k) (observe step callSteps s xs) =
        observe step callEvents s xs ∧ Tied s' k' := by
  have hsim : ∃ m, Run Locked.step ok' (s.withLock k) (observe step callSteps s xs) m ∧
      observe Locked.step Locked.callEvents (s.withLock k) (observe step callSteps s xs) =
        observe step callEvents s xs ∧ ∃ k', m = s'.withLock k' ∧ Tied s' k' := by
    refine hrun.simulated callSteps callEvents Locked.callEvents
      (fun s m => ∃ k, m = s.withLock k ∧ Tied s k) ⟨k, rfl, h⟩ ?_
    rintro s x s' m ⟨k, rfl, htied⟩ hx hst
    obtain ⟨hcpus, hx'⟩ := hok s x hx
    obtain ⟨k', hr, htied'⟩ := htied.simulates hcpus hn hst
    exact ⟨_, hr.kept_guard (hx' k), htied.notes hr, k', rfl, htied'⟩
  obtain ⟨m, hm, hnotes, k', rfl, htied⟩ := hsim
  exact ⟨k', hm, hnotes, htied⟩

end

/-- On at most 129 CPUs, in every interleaving of the instructions of the lock with the rest
of the calls: leaving out the instructions with which a task does not get the lock gives a run
of the calls over an abstract reader-writer lock, with the same calls, the same answers of
`kmalloc` and the same history, that ends in the same memory with every task at the same place.
So a task in a write section is alone, and the word is `RW_LOCK_BIAS` again whenever no task
holds the lock or tries to. -/
theorem lock_word_implements_lock (node : Addr → Locked.Node) (user : Task → UserMem) (n : ℕ)
    (hn : n ≤ 129) (xs : List Action) (s : State)
    (hrun : Run step (OnCpus n) (doeventInit node user) xs s) :
    (∃ ys k, Run Locked.step Locked.AnyStep (Locked.doeventInit node user) ys (s.withLock k) ∧
      ys.Sublist xs ∧ ys.filter (fun x => !x.isRun) = xs.filter (fun x => !x.isRun) ∧
      observe Locked.step Locked.callEvents (Locked.doeventInit node user) ys =
        observe step callEvents (doeventInit node user) xs) ∧
    (∀ t u, (s.pc t).access = .write → u ≠ t → (s.pc u).access = .none) ∧
    ((∀ t, ¬ s.Busy t) → s.lock = rwLockBias) := by
  have hguard : ∀ s x, OnCpus n s x → OnCpus n s x ∧ ∀ k, Locked.AnyStep (s.withLock k) x :=
    fun s x hx => ⟨hx, fun _ => trivial⟩
  obtain ⟨k, hm, hnotes, htied⟩ := (Tied.init node user).run hn hguard hrun
  refine ⟨⟨_, k, hm, observe_kept_sublist .., hrun.observe_kept_filter _ ?_, hnotes⟩,
    fun t u ht hu => htied.agrees.other ht hu, fun hidle => ?_⟩
  · intro s x hx
    cases x with
    | run t => cases hx
    | _ => rfl
  · obtain ⟨total, htotal, hlacks⟩ := htied.lacks
    have hcovers : Shared.Covers ∅ s.weight := fun t _ => weight_of_not_busy (hidle t)
    rw [← htotal.sum_eq hcovers] at hlacks
    exact lacks_zero_iff.mp hlacks

/-! ### A fixed run -/

theorem step_of_ne {s s' : State} {x : Action} {u : Task} (h : step s x = some s') (hu : u ≠ x.task) :
    s'.pc u = s.pc u ∧ s'.slow u = s.slow u := by
  cases x with
  | run t =>
    simp only [step] at h
    split at h
    next =>
      obtain ⟨⟨e, p⟩, _, hex⟩ := Option.bind_eq_some_iff.mp h
      cases e with
      | readLock | writeLock =>
        cases hex
        simp only [State.try]
        refine ⟨?_, Function.update_of_ne hu ..⟩
        split
        · exact Function.update_of_ne hu ..
        · rfl
      | readUnlock | writeUnlock =>
        cases hex
        exact ⟨Function.update_of_ne hu .., rfl⟩
      | _ =>
        simp only [execute] at hex
        obtain ⟨m, happly, rfl⟩ := Option.map_eq_some_iff.mp hex
        exact ⟨(Function.update_of_ne hu ..).trans (congrFun (Locked.apply_pc happly) u), rfl⟩
    next => cases h
  | _ =>
    simp only [step] at h
    obtain ⟨m, hm, rfl⟩ := Option.map_eq_some_iff.mp h
    exact ⟨(Locked.Move.of_step hm).pc_of_ne hu, rfl⟩

def State.idleFrom (s : State) (j : Task) : Prop := ∀ t, j ≤ t → s.pc t = .user ∧ s.slow t = .out

theorem State.idleFrom.step {s s' : State} {x : Action} {j : Task} (hi : s.idleFrom j)
    (hx : x.task < j) (h : X86.step s x = some s') : s'.idleFrom j := by
  intro t ht
  obtain ⟨hpc, hslow⟩ := step_of_ne h (Nat.ne_of_gt (Nat.lt_of_lt_of_le hx ht))
  rw [hpc, hslow]
  exact hi t ht

/-- Tasks below `j` have CPUs for all of them. -/
theorem State.idleFrom.onCpus {s : State} {x : Action} {j : Task} (hi : s.idleFrom j)
    (hx : x.task < j) : OnCpus j s x := by
  refine ⟨Finset.range j, by rw [Finset.card_range], Finset.mem_range.mpr hx, fun t hb => ?_⟩
  by_contra hge
  obtain ⟨hpc, hslow⟩ := hi t (by simpa using hge)
  rcases hb with hb | hb
  · rw [hpc] at hb
    exact hb rfl
  · exact hb hslow

def boot : State := doeventInit (fun _ => ⟨⟨0, 0, 0, 0, 0, 0, []⟩, 0, 0⟩) bootUser

-- Task 0 is linking its new event when task 1 asks for the lock, fails and spins.
def contendedRun : List Action :=
  [.call 0 rootCred .doeventopen, .kmalloc 0 (some 1)] ++ runs 0 5 ++
    [.call 1 rootCred (.doeventinfo 0 none)] ++ runs 1 4 ++ runs 0 1

theorem lock_word_implements_lock_contended :
    ∃ s, Run step (OnCpus 8) boot contendedRun s ∧ s.slow 1 = .readCmpl ∧
      (s.pc 0).access = .write ∧ (s.pc 1).access = .none := by
  have hsteps : (steps step (fun _ x => decide (x.task < 8)) boot contendedRun).map
      (fun s => s.slow 1 == .readCmpl && (s.pc 0).access == .write) = some true := by
    decide +kernel
  obtain ⟨s, hs, ht⟩ := Option.map_eq_some_iff.mp hsteps
  have hreach : Run step (OnCpus 8) boot contendedRun s ∧ s.idleFrom 8 := by
    refine Run.of_steps_invariant _ (State.idleFrom · 8) hs (fun _ _ => ⟨rfl, rfl⟩) ?_ ?_
    · exact fun s x s' hi hx hst => hi.step (of_decide_eq_true hx) hst
    · exact fun s x hi hx => hi.onCpus (of_decide_eq_true hx)
  simp only [Bool.and_eq_true, beq_iff_eq] at ht
  have hlock := lock_word_implements_lock _ _ 8 (by decide) _ s hreach.1
  exact ⟨s, hreach.1, ht.1, ht.2, hlock.2.1 0 1 ht.2 (by decide)⟩

end DoEvent.X86
