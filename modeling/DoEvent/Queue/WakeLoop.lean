import DoEvent.Queue.Preservation

/-!
# Live entries, and what `wake_up_all` reaches

Entries lie on the stacks of the waiting tasks, so a link that outlives its frame would be
followed into other data. Outside the loop that counts the waiting tasks this does not
happen. `wake_up_all` passes every entry that is on the queue when it takes the lock, once
and in order, whatever the other tasks do meanwhile; what it leaves behind are entries of
tasks that were not asleep, and none of them is about to sleep.
-/

namespace DoEvent.Queue

open Shared Transition
open Links (Store)

section
variable {s s' : State} {l l' : List Task} {t u w : Task} {p : Pc}

/-! ### Live entries -/

theorem Inv.framed (hi : Inv s l) (hu : u ∈ l) : (s.pc u).framed = true :=
  Pc.framed_of_ready (Pc.ready_of_linkable (hi.linkable u hu))

theorem Woken.framed {sched : Task → Sched} {pc : Task → Pc} (h : Woken sched pc u) :
    (pc u).framed = true :=
  Pc.framed_of_ready (Pc.ready_of_linkable (Pc.linkable_of_between h.1))

/-- The stores that the holder of the lock owes go to live entries. -/
theorem Inv.todo_framed (hi : Inv s l) {w : Store ListHead} (hw : w ∈ s.todo)
    (hu : w.node = .entry u) : (s.pc u).framed = true := by
  rcases hi.todo_entry hw hu with h | ⟨_, h⟩ | h
  · exact hi.framed h
  · exact h
  · exact h.framed

theorem Inv.touches_framed (hi : Inv s l) (hc : (s.pc t).counts = false)
    (hu : ListHead.entry u ∈ (s.pc t).touches t) : (s.pc u).framed = true := by
  have hholder : (s.pc t).locked = true → SectionOk s l t (s.pc t) ∧ s.lock = some t := fun h =>
    ⟨hi.holder t ((hi.lock t).mpr h), (hi.lock t).mpr h⟩
  have hself : u = t → (s.pc t).framed = true → (s.pc u).framed = true := fun h hf => h ▸ hf
  have hfresh := hi.fresh t
  have htodo : ∀ {todo k}, s.pc t = .stores todo k → (Pc.stores todo k).locked = true →
      s.todo = todo := fun hpc hk => by
    rw [todo_of_lock ((hi.lock t).mpr (hpc ▸ hk)), hpc, todo_stores hk]
  generalize hpc : s.pc t = q at hu hc hholder hself hfresh
  cases q with
  | stores todo k =>
    cases todo with
    | nil => cases hu
    | cons w todo =>
      have hnode : w.node = .entry u := (List.mem_singleton.mp hu).symm
      cases k with
      | defineWait =>
        have h := hfresh.1 w (List.mem_cons_self ..)
        rw [hnode] at h
        exact hself (ListHead.entry.inj h) rfl
      | listAdd | listDelInit d =>
        refine hi.todo_framed ?_ hnode
        rw [htodo hpc rfl]
        exact List.mem_cons_self ..
  | prepareEmpty | finishNext | finishPrev =>
    exact hself (ListHead.entry.inj (List.mem_singleton.mp hu)) rfl
  | prepareHead | prepareWarnNext next | sigActive | sigFirst | wakeFirst process =>
    cases List.mem_singleton.mp hu
  | prepareWarnPrev next =>
    obtain ⟨hok, ht⟩ := hholder rfl
    have hnext : next = first l :=
      Eq.trans hok (hi.ring_section ht (by rw [hpc]; rfl)).next_head
    exact hi.framed (first_mem (hnext.symm.trans (List.mem_singleton.mp hu).symm))
  | deletePrev d =>
    cases d with
    | finish => exact hself (ListHead.entry.inj (List.mem_singleton.mp hu)) rfl
    | autoremove process curr next =>
      rw [ListHead.entry.inj (List.mem_singleton.mp hu)]
      exact (hholder rfl).1.1.framed
  | deleteNext d prev =>
    cases d with
    | finish => exact hself (ListHead.entry.inj (List.mem_singleton.mp hu)) rfl
    | autoremove process curr next =>
      rw [ListHead.entry.inj (List.mem_singleton.mp hu)]
      exact (hholder rfl).1.2.1.framed
  | sigNext pos process => cases hc
  | wakeNext process curr =>
    obtain ⟨ys, ⟨xs, hl, _⟩, hcurr⟩ := (hholder rfl).1
    have hm := first_mem (hcurr.symm.trans (List.mem_singleton.mp hu).symm)
    exact hi.framed (by simp [hl, hm])
  | wakeFunc process curr next =>
    obtain ⟨ys, ⟨xs, hl, _⟩, _⟩ := (hholder rfl).1
    rw [ListHead.entry.inj (List.mem_singleton.mp hu)]
    exact hi.framed (by simp [hl])
  | _ => cases hu

end

/-- Along every schedule, the entry that a task reads or writes lies in a frame that is on
the stack of its task, unless the task is in the loop that counts the waiting tasks. -/
theorem touched_entries_on_stack (links : Links ListHead) (xs : List Action) (s : State)
    (h : Steps (init links) xs s) (t u : Task) (hc : (s.pc t).counts = false)
    (hu : ListHead.entry u ∈ (s.pc t).touches t) : (s.pc u).framed = true := by
  obtain ⟨l, hi⟩ := Inv.reachable h
  exact hi.touches_framed hc hu

/-- Stacks on which every entry happens to be closed on itself. -/
def blank : Links ListHead := ⟨id, id⟩

def runs (t : Task) (n : ℕ) : List Action := List.replicate n (.run t)

/-- A task waits while the condition is 0 and goes to sleep. -/
def sleeps (t : Task) : List Action := .wait t :: runs t 20

theorem touched_entries_on_stack_waker :
    ∃ s, Steps (init blank) (sleeps 1 ++ .sig 2 :: runs 2 6) s ∧
      ListHead.entry 1 ∈ (s.pc 2).touches 2 ∧ (s.pc 1).framed = true := by
  obtain ⟨s, hr, ht⟩ : ∃ s, Steps (init blank) (sleeps 1 ++ .sig 2 :: runs 2 6) s ∧
      ((s.pc 2).touches 2 == [.entry 1] && (s.pc 2).counts == false) = true :=
    Run.of_test (fun _ _ => true) _ (by decide) fun _ _ _ => trivial
  simp only [Bool.and_eq_true, beq_iff_eq] at ht
  have hmem : ListHead.entry 1 ∈ (s.pc 2).touches 2 := by
    rw [ht.1]
    exact List.mem_singleton_self _
  exact ⟨s, hr, hmem, touched_entries_on_stack blank _ s hr 2 1 ht.2 hmem⟩

/-- Along every schedule the queue is whole: `__list_add` finds no corruption, `finish_wait`
never takes an entry that is on the queue for one that is not, and the links, once the holder
of the lock has made the stores it owes, are a ring through the entries of waiting tasks. A
task that is off the run queue has its entry in the ring, where a wake-up finds it. -/
theorem queue_whole (links : Links ListHead) (xs : List Action) (s : State)
    (h : Steps (init links) xs s) :
    s.warned = false ∧ (∀ t, s.pc t ≠ .finishPrev) ∧
      ∃ l : List Task, s.settled.Ring .taskList (l.map .entry) ∧ (∀ t ∈ l, (s.pc t).framed = true) ∧
        ∀ t, (s.sched t).onRq = false → s.pc t = .waitAsleep ∧ t ∈ l := by
  obtain ⟨l, hi⟩ := Inv.reachable h
  refine ⟨hi.warned, hi.careful, l, hi.ring, fun t ht => hi.framed ht, fun t ht => ?_⟩
  obtain ⟨hpc, hm, _⟩ := hi.asleep t ht
  exact ⟨hpc, hm⟩

theorem queue_whole_asleep :
    ∃ s, Steps (init blank) (sleeps 1) s ∧ (s.sched 1).onRq = false ∧ s.lock = none ∧
      ∃ l : List Task, s.links.Ring .taskList (l.map .entry) ∧ 1 ∈ l := by
  obtain ⟨s, hr, ht⟩ : ∃ s, Steps (init blank) (sleeps 1) s ∧
      (!(s.sched 1).onRq && s.lock == none) = true :=
    Run.of_test (fun _ _ => true) _ (by decide) fun _ _ _ => trivial
  simp only [Bool.and_eq_true, beq_iff_eq, Bool.not_eq_true'] at ht
  obtain ⟨_, _, l, hring, _, hoff⟩ := queue_whole blank _ s hr
  rw [Inv.settled_free ht.2] at hring
  exact ⟨s, hr, ht.1, ht.2, l, hring, (hoff 1 ht.1).2⟩

/-! ### The wake-up loop -/

/-- What `__wake_up_common` does in task `w`: the task whose entry it calls, and whether
`try_to_wake_up` found it asleep. -/
def wakes (w : Task) (s : State) : Action → List (Task × Bool)
  | .run t =>
    match s.pc t with
    | .wakeFunc _ curr _ => if t = w then [(curr, (tryToWakeUp (s.sched curr)).2)] else []
    | _ => []
  | _ => []

/-- The entries that the loop has left on the queue. -/
def left (notes : List (Task × Bool)) : List Task := (notes.filter fun n => !n.2).map Prod.fst

/-- `l` was on the queue when the loop began, `l'` is now, and `notes` is what the loop has
done so far. -/
def Visiting (l : List Task) (notes : List (Task × Bool)) (l' : List Task) : Pc → Prop
  | .wakeFirst _ => notes = [] ∧ l' = l
  | .wakeNext _ curr =>
    ∃ ys, notes.map Prod.fst ++ ys = l ∧ l' = left notes ++ ys ∧ curr = first ys
  | .wakeFunc _ curr next =>
    ∃ ys, notes.map Prod.fst ++ curr :: ys = l ∧ l' = left notes ++ curr :: ys ∧ next = first ys
  | .deletePrev (.autoremove _ curr next) | .deleteNext (.autoremove _ curr next) _ =>
    ∃ ys, notes.map Prod.fst ++ ys = l ∧ l' = left notes ++ curr :: ys ∧ next = first ys
  | .stores _ (.listDelInit (.autoremove _ _ next)) =>
    ∃ ys, notes.map Prod.fst ++ ys = l ∧ l' = left notes ++ ys ∧ next = first ys
  | .wakeUnlock _ => notes.map Prod.fst = l ∧ l' = left notes
  | _ => False

def Pc.wakeDone : Pc → Bool
  | .wakeUnlock _ => true
  | _ => false

/-- The waker does not release the lock. -/
def Keeps (w : Task) (s : State) (x : Action) : Prop := x = .run w → (s.pc w).wakeDone = false

instance (w : Task) (s : State) (x : Action) : Decidable (Keeps w s x) :=
  inferInstanceAs (Decidable (x = .run w → (s.pc w).wakeDone = false))

section
variable {s s' : State} {l l' : List Task} {t u w : Task} {p : Pc} {notes : List (Task × Bool)}
  {x : Action}

theorem left_append (notes : List (Task × Bool)) (n : Task × Bool) :
    left (notes ++ [n]) = left notes ++ if n.2 then [] else [n.1] := by
  cases h : n.2 <;> simp [left, h]

theorem Visiting.locked (h : Visiting l notes l' p) : p.locked = true := by
  cases p with
  | stores todo k =>
    cases k with
    | defineWait | listAdd => cases h
    | listDelInit d => rfl
  | _ => first | rfl | cases h

theorem apply_pc {e : Effect} {m : State} (h : apply s t e = some m) : m.pc = s.pc := by
  cases e with
  | lock =>
    obtain ⟨_, rfl⟩ := apply_lock h
    rfl
  | _ =>
    cases h
    rfl

/-- A task moves only by its own steps and by entering a call. -/
theorem step_pc_cases (h : step s x = some s') (hx : x ≠ .run w) :
    s'.pc w = s.pc w ∨ s.pc w = .user ∧
      (x = .wait w ∧ s'.pc w = .waitReset ∨ x = .sig w ∧ s'.pc w = .sigActive) := by
  cases x with
  | wait t | sig t =>
    simp only [step] at h
    split at h
    · next hpc =>
      cases h
      by_cases htw : w = t
      · subst htw
        simp [hpc, goto_self]
      · exact .inl (goto_of_ne _ _ htw)
    · cases h
  | run t =>
    obtain ⟨_, e, p, m, _, happly, rfl⟩ := run_eq_some h
    have htw : w ≠ t := fun he => hx (he ▸ rfl)
    rw [goto_of_ne _ _ htw, apply_pc happly]
    exact .inl rfl
  | posix t =>
    cases h
    exact .inl rfl
  | deliver t | reuse t next prev =>
    simp only [step] at h
    split at h <;> cases h
    exact .inl rfl

theorem step_pc (h : step s x = some s') (hx : x ≠ .run w) (hw : s.pc w ≠ .user) :
    s'.pc w = s.pc w :=
  (step_pc_cases h hx).resolve_right fun he => hw he.1

theorem Pc.moved_of_unlocked (h : p.locked = false) : p.moved t l = l := by
  cases p <;> first | rfl | cases h

/-- While a task holds the lock, the steps of others leave the queue as it is. -/
theorem Inv.queueStep_other (hi : Inv s l) (hw : s.lock = some w) (hx : x ≠ .run w) :
    queueStep s l x = l := by
  cases x with
  | run t => exact Pc.moved_of_unlocked (hi.other hw fun he => hx (he ▸ rfl))
  | _ => rfl

theorem wakes_other (hx : x ≠ .run w) : wakes w s x = [] := by
  cases x with
  | run t =>
    have htw : t ≠ w := fun he => hx (he ▸ rfl)
    simp only [wakes]
    split
    · exact if_neg htw
    · rfl
  | _ => rfl

/-- One step of the loop. -/
theorem Visiting.own (hi : Inv s l') (hv : Visiting l notes l' (s.pc w))
    (hk : (s.pc w).wakeDone = false) (h : step s (.run w) = some s') :
    Visiting l (notes ++ wakes w s (.run w)) ((s.pc w).moved w l') (s'.pc w) := by
  obtain ⟨_, e, p, m, hnext, happly, rfl⟩ := run_eq_some h
  have hlock : s.lock = some w := (hi.lock w).mpr hv.locked
  have hring := hi.ring_section hlock
  rw [goto_self]
  simp only [wakes]
  generalize hpc : s.pc w = q at hv hk hnext hring ⊢
  cases q with
  | wakeFirst process =>
    cases hnext
    obtain ⟨rfl, rfl⟩ := hv
    exact ⟨l', rfl, rfl, (hring rfl).next_head⟩
  | wakeNext process curr =>
    obtain ⟨ys, hl, hl', hcurr⟩ := hv
    cases ys with
    | nil =>
      have hc : curr = .taskList := hcurr
      subst hc
      cases hnext
      simp only [List.append_nil] at hl hl' ⊢
      exact ⟨hl, hl'⟩
    | cons c ys =>
      have hc : curr = .entry c := hcurr
      subst hc
      cases hnext
      have hr := hring rfl
      rw [hl', List.map_append, List.map_cons] at hr
      rw [List.append_nil]
      exact ⟨ys, hl, hl', hr.next_member⟩
  | wakeFunc process curr next =>
    cases hnext
    obtain ⟨ys, hl, hl', hnext⟩ := hv
    simp only [if_true]
    have hfst : (notes ++ [(curr, (tryToWakeUp (s.sched curr)).2)]).map Prod.fst ++ ys = l := by
      simpa using hl
    cases hwake : (tryToWakeUp (s.sched curr)).2 with
    | false =>
      rw [hwake] at hfst
      refine ⟨ys, hfst, ?_, hnext⟩
      rw [left_append]
      simpa [Pc.moved] using hl'
    | true =>
      rw [hwake] at hfst
      refine ⟨ys, hfst, ?_, hnext⟩
      rw [left_append]
      simpa [Pc.moved] using hl'
  | deletePrev d =>
    cases hnext
    cases d with
    | finish => cases hv
    | autoremove process curr next =>
      rw [List.append_nil]
      exact hv
  | deleteNext d prev =>
    cases hnext
    cases d with
    | finish => cases hv
    | autoremove process curr next =>
      obtain ⟨ys, hl, hl', hnext⟩ := hv
      rw [List.append_nil]
      refine ⟨ys, hl, ?_, hnext⟩
      have hnodup := hi.nodup
      rw [hl', List.nodup_append] at hnodup
      have hx : curr ∉ left notes := fun h => hnodup.2.2 curr h curr (List.mem_cons_self ..) rfl
      show l'.erase curr = _
      rw [hl', List.erase_append_right _ hx, List.erase_cons_head]
  | stores todo k =>
    rw [List.append_nil]
    cases k with
    | defineWait | listAdd => cases hv
    | listDelInit d =>
      cases d with
      | finish => cases hv
      | autoremove process curr next =>
        cases todo <;> cases hnext <;> exact hv
  | wakeUnlock process => cases hk
  | _ => cases hv

theorem Visiting.step (hi : Inv s l') (hv : Visiting l notes l' (s.pc w)) (hk : Keeps w s x)
    (h : step s x = some s') :
    Visiting l (notes ++ wakes w s x) (queueStep s l' x) (s'.pc w) := by
  by_cases hx : x = .run w
  · subst hx
    exact hv.own hi (hk rfl) h
  · have hlock : s.lock = some w := (hi.lock w).mpr hv.locked
    have huser : s.pc w ≠ .user := fun he => by
      rw [he] at hv
      cases hv
    rw [wakes_other hx, List.append_nil, hi.queueStep_other hlock hx, step_pc h hx huser]
    exact hv

theorem Visiting.run {ys : List Action} {process : ℕ} (h : Run Queue.step (Keeps w) s ys s')
    (hi : Inv s l) (hw : s.pc w = .wakeFirst process) :
    ∃ l', Inv s' l' ∧ Visiting l (observe Queue.step (wakes w) s ys) l' (s'.pc w) := by
  refine h.observed (wakes w) (fun notes s => ∃ l', Inv s l' ∧ Visiting l notes l' (s.pc w))
    (l := []) ⟨l, hi, ?_⟩ ?_
  · rw [hw]
    exact ⟨rfl, rfl⟩
  · rintro notes s x s' ⟨l', hi, hv⟩ hk hstep
    exact ⟨_, hi.step hstep, hv.step hi hk hstep⟩

end

/-- `wake_up_all` in task `w`, from the moment it has taken the lock to the moment before it
releases it, while the other tasks go on: it calls every entry that was on the queue, once
and in order; what is left are the entries of the tasks it did not find asleep; no task is
off the run queue, and no task whose entry is on the queue is about to sleep. -/
theorem wake_up_all_complete (links : Links ListHead) (xs ys : List Action) (s s' : State) (w : Task)
    (process : ℕ) (l : List Task) (hs : Steps (init links) xs s) (hw : s.pc w = .wakeFirst process)
    (hl : s.links.Ring .taskList (l.map .entry)) (h : Run step (Keeps w) s ys s')
    (hend : s'.pc w = .wakeUnlock process) :
    (observe step (wakes w) s ys).map Prod.fst = l ∧
      s'.links.Ring .taskList ((left (observe step (wakes w) s ys)).map .entry) ∧
      ∀ u, (s'.sched u).onRq = true ∧ ((s'.pc u).linked = true → (s'.sched u).state = .running) := by
  obtain ⟨l₀, hi⟩ := Inv.reachable hs
  have hlock : s.lock = some w := (hi.lock w).mpr (by rw [hw]; rfl)
  have hring := hi.ring_section hlock (by rw [hw]; rfl)
  have hl₀ : l₀ = l := List.map_injective_iff.mpr (fun a b h => ListHead.entry.inj h) (hring.unique hl)
  subst hl₀
  obtain ⟨l', hi', hv⟩ := Visiting.run h hi hw
  have hlock' : s'.lock = some w := (hi'.lock w).mpr hv.locked
  have hring' := hi'.ring_section hlock' (by rw [hend]; rfl)
  have hok := hi'.holder w hlock'
  rw [hend] at hv hok
  obtain ⟨zs, hzs, hrun⟩ := hok
  rw [List.append_nil] at hzs
  subst hzs
  obtain ⟨hnotes, hleft⟩ := hv
  refine ⟨hnotes, hleft ▸ hring', fun u => ⟨?_, fun hu => hrun u (hi'.linked u hu)⟩⟩
  by_contra hoff
  obtain ⟨_, hm, hst⟩ := hi'.asleep u (by simpa using hoff)
  rw [hrun u hm] at hst
  cases hst

/-- Two tasks are asleep when task 3 takes the lock. A POSIX signal then reaches task 1 before
the loop does: its entry stays on the queue, and it is awake. -/
theorem wake_up_all_complete_two :
    ∃ s s', Steps (init blank) (sleeps 1 ++ sleeps 2 ++ .sig 3 :: runs 3 6) s ∧
      Run step (Keeps 3) s (.posix 1 :: runs 3 13) s' ∧
      s'.links.Ring .taskList [.entry 1] ∧ (s'.sched 1).onRq = true ∧ (s'.sched 2).onRq = true := by
  have hsteps : ((steps step (fun _ _ => true) (init blank)
      (sleeps 1 ++ sleeps 2 ++ .sig 3 :: runs 3 6)).map fun s =>
        s.pc 3 == .wakeFirst 2 &&
        observe step (wakes 3) s (.posix 1 :: runs 3 13) == [(2, true), (1, false)] &&
        (steps step (fun s x => decide (Keeps 3 s x)) s (.posix 1 :: runs 3 13)).map (fun s' =>
          s'.pc 3 == .wakeUnlock 2) == some true) = some true := by
    decide +kernel
  obtain ⟨s, hs, ht⟩ := Option.map_eq_some_iff.mp hsteps
  simp only [Bool.and_eq_true, beq_iff_eq] at ht
  obtain ⟨⟨hpc, hnotes⟩, hrest⟩ := ht
  obtain ⟨s', hs', hpc'⟩ := Option.map_eq_some_iff.mp hrest
  have hr : Steps (init blank) (sleeps 1 ++ sleeps 2 ++ .sig 3 :: runs 3 6) s :=
    .of_steps (fun _ _ => true) hs fun _ _ _ => trivial
  have hr' : Run step (Keeps 3) s (.posix 1 :: runs 3 13) s' :=
    .of_steps _ hs' fun _ _ h => of_decide_eq_true h
  obtain ⟨l, hi⟩ := Inv.reachable hr
  have hring := hi.ring_section ((hi.lock 3).mpr (by rw [hpc]; rfl)) (by rw [hpc]; rfl)
  obtain ⟨_, hleft, hawake⟩ := wake_up_all_complete blank _ _ s s' 3 2 l hr hpc hring hr'
    (beq_iff_eq.mp hpc')
  rw [hnotes] at hleft
  exact ⟨s, s', hr, hr', hleft, (hawake 1).1, (hawake 2).1⟩

end DoEvent.Queue
