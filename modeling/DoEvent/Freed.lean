import DoEvent.Closing

/-!
# Waiters and the freed record

A woken waiter is still inside `wait_event_interruptible`: it calls `prepare_to_wait` on
the event's queue, tests the event's condition and calls `finish_wait`. The close does
not wait for that before it passes the record to `kfree`.
-/

namespace DoEvent

open Transition

/-- The next step of `t` is a step of a wait on `a` that reads or writes the record:
`condition`, or the lock and the list of `queue`. `finish_wait` looks at the queue only if
the entry is still linked. -/
def State.touches (s : State) (t : Task) (a : Addr) : Prop :=
  match s.pc t with
  | .waitReset e | .waitTest e | .waitPrepare e | .waitRetest e => e = a
  | .waitFinish e => e = a ∧ (s.sched t).linked = true
  | _ => False

instance (s : State) (t : Task) (a : Addr) : Decidable (s.touches t a) := by
  unfold State.touches
  split <;> infer_instance

theorem hold_of_touches {s : State} {t : Task} {a : Addr} (h : s.touches t a) :
    s.holds t .waiting a := by
  rw [State.touches] at h
  rw [State.holds]
  cases hpc : s.pc t with
  | waitReset e | waitTest e | waitPrepare e | waitRetest e =>
    simp only [hpc] at h
    rw [h]
    rfl
  | waitFinish e =>
    simp only [hpc] at h
    rw [h.1]
    rfl
  | _ => simp only [hpc] at h

theorem step_of_touches {s : State} {t : Task} {a : Addr} (hl : LocalOk (s.pc t) (s.sched t))
    (h : s.touches t a) : ∃ s', step s (.run t) = some s' := by
  rw [State.touches] at h
  cases hpc : s.pc t with
  | waitReset e | waitTest e | waitPrepare e | waitRetest e | waitFinish e =>
    rw [hpc] at hl
    simp only [step, hl.1, hpc, next, if_true, Option.map_some]
    exact ⟨_, rfl⟩
  | _ => simp only [hpc] at h

/-- `t` can be scheduled so that it comes back to the record within the same call. -/
def CanTouch (s : State) (t : Task) (a : Addr) : Prop :=
  ∃ zs s', Run step AnyStep s zs s' ∧ (∀ k q, .call t k q ∉ zs) ∧ s'.touches t a

section
variable {s s' : State} {t : Task} {a : Addr}

theorem CanTouch.head {x : Action} (hx : ∀ k q, x ≠ .call t k q) (h : step s x = some s')
    (ht : CanTouch s' t a) : CanTouch s t a := by
  obtain ⟨zs, s'', hr, hc, ht⟩ := ht
  refine ⟨x :: zs, s'', .cons trivial h hr, fun k q hm => ?_, ht⟩
  rcases List.mem_cons.mp hm with hm | hm
  · exact hx k q hm.symm
  · exact hc k q hm

theorem canTouch_now (h : s.touches t a) : CanTouch s t a :=
  ⟨[], s, .nil s, fun _ _ h => absurd h List.not_mem_nil, h⟩

theorem canTouch_awake (hrq : (s.sched t).onRq = true) (hpc : s.pc t = .waitAsleep a) :
    CanTouch s t a :=
  .head (by simp) (step_of_flow hrq hpc (.waitAwake a)) (canTouch_now (by simp [State.touches]))

/-- A POSIX signal brings a blocked waiter back to the head of its loop. -/
theorem canTouch_asleep (hl : LocalOk (s.pc t) (s.sched t)) (hpc : s.pc t = .waitAsleep a) :
    CanTouch s t a := by
  by_cases hrq : (s.sched t).onRq = true
  · exact canTouch_awake hrq hpc
  · have hoff : (s.sched t).onRq = false := by simpa using hrq
    have hstate := hl.interruptible_of_blocked hoff
    refine .head (x := .posix t) (by simp) rfl (canTouch_awake ?_ (by simpa using hpc))
    simp [apply, signalWakeUp, tryToWakeUp, hstate, hoff]

theorem canTouch_schedule (hl : LocalOk (s.pc t) (s.sched t)) (hpc : s.pc t = .waitSchedule a) :
    CanTouch s t a := by
  have hrq : (s.sched t).onRq = true := by
    rw [hpc] at hl
    exact hl.1
  have hstep := step_of_flow hrq hpc (.waitSchedule a)
  obtain ⟨e, p, hm, hs⟩ := step_eq_some.mp hstep
  refine .head (by simp) hstep (canTouch_asleep ?_ (by simp))
  have hl' := hm.localOk hl
  rw [hs]
  simpa [Action.task] using hl'

theorem canTouch_waiting (hl : LocalOk (s.pc t) (s.sched t)) (hw : s.holds t .waiting a) :
    CanTouch s t a := by
  rw [State.holds] at hw
  have hl' := hl
  generalize hpc : s.pc t = q at hw hl
  cases q with
  | waitReset e | waitTest e | waitPrepare e | waitRetest e =>
    cases hw
    exact canTouch_now (by simp [State.touches, hpc])
  | waitFinish e =>
    cases hw
    exact canTouch_now (by simp [State.touches, hpc, hl.2])
  | waitSignal e =>
    cases hw
    cases hsig : (s.sched t).sigPending with
    | true =>
      refine .head (by simp) (step_of_flow hl.1 hpc (.waitSignalled a hsig)) (canTouch_now ?_)
      simp [State.touches, apply, hl.2]
    | false =>
      refine .head (by simp) (step_of_flow hl.1 hpc (.waitUnsignalled a hsig)) ?_
      exact canTouch_schedule (by simpa [apply] using (show LocalOk (.waitSchedule a) _ from hl))
        (by simp)
  | waitSchedule e =>
    cases hw
    exact canTouch_schedule hl' hpc
  | waitAsleep e =>
    cases hw
    exact canTouch_asleep hl' hpc
  | _ => cases hw

end

/-- While the address is free nobody finds it, and nobody is in a wait on it. -/
structure Abandoned (s : State) (a : Addr) : Prop where
  unlisted : Unlisted s a
  noWaiter : ∀ t, ¬ s.holds t .waiting a

theorem Abandoned.step {s s' : State} {x : Action} {a : Addr} (hi : Abandoned s a)
    (hx : ∀ u, x ≠ .kmalloc u (some a)) (h : step s x = some s') : Abandoned s' a := by
  refine ⟨hi.unlisted.step hx h, fun u hu => ?_⟩
  obtain ⟨e, p, hm, rfl⟩ := step_eq_some.mp h
  rcases hm.holds hu with hu | ⟨_, t, c, i, _, _, hr⟩
  · exact hi.noWaiter u hu
  · exact hi.unlisted.not_found hr

/-- When a close reaches `kfree` its record cannot be found any more, as long as no close
unlinks a record that another close is about to unlink. -/
theorem unlisted_at_kfree {mem : Addr → Event} {user : Task → UserMem} {xs : List Action} {s : State}
    (h : Run step UnlinksAlone (doeventInit mem user) xs s) {c : Task} {a : Addr} {n : ℕ}
    (hpc : s.pc c = .closeKfree a n) : Unlisted s a := by
  have hi := h.invariant ListInv (doeventInit_listInv mem user) fun _ _ _ hi hok hst => hi.step hok hst
  exact hi.unlisted (holds_of_pc hpc rfl)

/-- After the `kfree` of a close no wait step reads or writes the record exactly when no
task is inside a wait on it at that moment. The steps meant are those of the waiters of
the freed event, at any later time within the same call, and those of any task while the
address has not been handed out again. -/
theorem freed_record_untouched_iff (mem : Addr → Event) (user : Task → UserMem) (xs : List Action)
    (s s₁ : State) (c : Task) (a : Addr) (n : ℕ)
    (hreach : Run step AnyStep (doeventInit mem user) xs s) (hpc : s.pc c = .closeKfree a n)
    (hstep : step s (.run c) = some s₁) :
    (∀ zs s' s'' t, Run step AnyStep s₁ zs s' → step s' (.run t) = some s'' →
      ((s.holds t .waiting a ∧ ∀ k q, .call t k q ∉ zs) ∨
        (Unlisted s a ∧ ∀ u, .kmalloc u (some a) ∉ zs)) →
      ¬ s'.touches t a) ↔ ∀ t, ¬ s.holds t .waiting a := by
  have hlocal := localInv_run hreach (doeventInit_localInv mem user)
  constructor
  · intro hnone t ht
    have htc : t ≠ c := by
      rintro rfl
      rw [State.holds, hpc] at ht
      cases ht
    have hl₁ := hlocal.step hstep
    have hw : s₁.holds t .waiting a := by
      rw [State.holds, step_pc_of_ne hstep htc]
      exact ht
    obtain ⟨zs, s', hr, hcall, htouch⟩ := canTouch_waiting (hl₁ t) hw
    obtain ⟨s'', hs''⟩ := step_of_touches (localInv_run hr hl₁ t) htouch
    exact hnone zs s' s'' t hr hs'' (.inl ⟨ht, hcall⟩) htouch
  · intro hnone zs s' s'' t hr _ hcase htouch
    rcases hcase with ⟨ht, _⟩ | ⟨hun, hfresh⟩
    · exact hnone t ht
    · have hstart : Abandoned s a := ⟨hun, hnone⟩
      have hend := (hr.restrict (fun x => ∀ u, x ≠ .kmalloc u (some a)) fun x hx u h =>
          hfresh u (h ▸ hx)).invariant (Abandoned · a) (hstart.step (by simp) hstep)
        fun _ _ _ hi hok hst => hi.step hok.2 hst
      exact hend.noWaiter t (hold_of_touches htouch)

/-- Task 1 sleeps in a wait on event 0, and task 0 has closed the event up to its `kfree`. -/
def closeAsleep : List Action := closeUnder 7 ++ runs 0 1

/-- Nobody waits, and task 0 has closed event 0 up to its `kfree`. -/
def closeIdle : List Action :=
  opens 0 rootCred 1 ++ [.call 0 rootCred (.doeventclose 0)] ++ runs 0 3

theorem freed_record_untouched_iff_idle :
    ∃ s s₁, Run step AnyStep boot closeIdle s ∧ s.pc 0 = .closeKfree 1 0 ∧
      step s (.run 0) = some s₁ ∧ Unlisted s 1 ∧
      ∀ zs s' s'' t, Run step AnyStep s₁ zs s' → step s' (.run t) = some s'' →
        (∀ u, .kmalloc u (some 1) ∉ zs) → ¬ s'.touches t 1 := by
  obtain ⟨s, hr, hi, ht⟩ := run_of_idle_test UnlinksAlone closeIdle 1 (unlinksAloneTest 1)
    (fun s => decide (s.pc 0 = .closeKfree 1 0 ∧ (s.sched 0).onRq = true))
    (by decide) (boot_idleFrom 1) fun s x hi h => unlinksAlone_of_test hi h
  obtain ⟨hpc, hrq⟩ := of_decide_eq_true ht
  have hstep := step_of_flow hrq hpc (.closeKfree 1 0)
  have hun := unlisted_at_kfree hr hpc
  have hany : Run step AnyStep boot closeIdle s := hr.mono fun _ _ _ => trivial
  refine ⟨s, _, hany, hpc, hstep, hun, fun zs s' s'' t hr' hst hfresh => ?_⟩
  refine (freed_record_untouched_iff bootMem bootUser closeIdle s _ 0 1 0 hany hpc hstep).mpr ?_
    zs s' s'' t hr' hst (.inr ⟨hun, hfresh⟩)
  intro t hw
  match t with
  | 0 =>
    rw [State.holds, hpc] at hw
    cases hw
  | t + 1 =>
    rw [State.holds, hi (t + 1) (Nat.le_add_left 1 t)] at hw
    cases hw

/-- A sleeper woken by the close goes on with `prepare_to_wait` on the freed record. -/
theorem freed_record_touched :
    ¬ ∀ mem user xs s s₁ c a n, Run step AnyStep (doeventInit mem user) xs s →
      s.pc c = .closeKfree a n → step s (.run c) = some s₁ →
      ∀ zs s' s'' t, Run step AnyStep s₁ zs s' → step s' (.run t) = some s'' →
        s.holds t .waiting a → (∀ k q, .call t k q ∉ zs) → ¬ s'.touches t a := by
  intro hclaim
  have hrun : ∃ s, Run step AnyStep boot closeAsleep s ∧
      (decide (s.pc 0 = .closeKfree 1 1 ∧ s.holds 1 .waiting 1) &&
        (step s (.run 0)).any fun s₁ => (steps step (fun _ _ => true) s₁ (runs 1 1)).any fun s' =>
          (step s' (.run 1)).isSome && decide (s'.touches 1 1)) = true :=
    Run.of_test (fun _ _ => true) _ (by decide) fun _ _ _ => trivial
  obtain ⟨s, hr, ht⟩ := hrun
  rw [Bool.and_eq_true, Option.any_eq_true] at ht
  obtain ⟨hpc, s₁, hstep, ht⟩ := ht
  rw [Option.any_eq_true] at ht
  obtain ⟨s', hs', ht⟩ := ht
  rw [Bool.and_eq_true, Option.isSome_iff_exists] at ht
  obtain ⟨⟨s'', hs''⟩, htouch⟩ := ht
  obtain ⟨hpc, hw⟩ := of_decide_eq_true hpc
  exact hclaim bootMem bootUser closeAsleep s s₁ 0 1 1 hr hpc hstep (runs 1 1) s' s'' 1
    (Run.of_steps _ hs' fun _ _ _ => trivial) hs'' hw (by simp [runs]) (of_decide_eq_true htouch)

end DoEvent
