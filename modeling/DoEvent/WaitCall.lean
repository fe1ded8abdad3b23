import DoEvent.Wakeups

/-!
# One wait call: its queue entry and what its return value says

While no event is closed, the stack entry of a wait is on the queue of its event only
between `prepare_to_wait` and `finish_wait`, and it is there whenever the task is blocked.
The value 1 is the only one that a wait returns after its lookup, whether the condition was
set or a POSIX signal ended the loop.
-/

namespace DoEvent

open Transition

/-! ### Queue entries -/

inductive WaitMark where
  | called
  | prepared (a : Addr)
  | finished (a : Addr)
  deriving DecidableEq, Repr

/-- The calls of task `t`, and its steps through `prepare_to_wait` and `finish_wait`. -/
def waitMarks (t : Task) (s : State) : Action → List WaitMark
  | .call u _ _ => if u = t then [.called] else []
  | .run u =>
    if u = t then
      match s.pc t with
      | .waitPrepare a => [.prepared a]
      | .waitFinish a => [.finished a]
      | _ => []
    else []
  | _ => []

theorem waitMarks_of_ne {t : Task} {s : State} {x : Action} (ht : x.task ≠ t) :
    waitMarks t s x = [] := by
  cases x <;> first | rfl | exact if_neg ht

/-- A linked entry was last put on the queue, and neither `finish_wait` nor a new call of
its task came after that. -/
def LinkedLast (t : Task) (l : List WaitMark) (s : State) : Prop :=
  ∀ a, s.holds t .waiting a → (s.sched t).linked = true → l.getLast? = some (.prepared a)

theorem LinkedLast.own {l : List WaitMark} {s : State} {x : Action} {e : Effect} {p : Pc} {a : Addr}
    (hi : LinkedLast x.task l s) (hl : LocalInv s) (hm : Move s x e p)
    (ha : p.hold = some (.waiting, a)) (hk : ((apply s x.task e).sched x.task).linked = true) :
    (l ++ waitMarks x.task s x).getLast? = some (.prepared a) := by
  have hown := hl x.task
  have hquiet : e.quiet = true → (s.sched x.task).linked = true := fun hq =>
    apply_linked_of_quiet x.task hq x.task ▸ hk
  cases hm with
  | call t c k hpc =>
    rw [Action.task, hpc] at hown
    have hlinked : (s.sched t).linked = true := hquiet rfl
    rw [hown.2.2] at hlinked
    cases hlinked
  | nomem t c hpc | kmalloc t c b hpc hfree => cases ha
  | posix t =>
    have hlast := hi a ha (hquiet rfl)
    simpa [waitMarks] using hlast
  | deliver t hpc =>
    rw [hpc] at ha
    cases ha
  | run t e p hrq hnext =>
    have hf := Flow.of_next hnext
    have hlast := hi a
    simp only [State.holds, waitMarks, Action.task, if_true] at hquiet hown hlast ⊢
    generalize hpc : s.pc t = q at hf hown hlast ⊢
    cases hf with
    | waitPrepare b =>
      cases ha
      simp
    | waitFound c i b h | waitReset b | waitEnter b h =>
      have hlinked := hquiet rfl
      rw [hown.2.2] at hlinked
      cases hlinked
    | waitLeave b h | waitCommit b h | waitSignalled b h | waitUnsignalled b h | waitSchedule b
    | waitAwake b =>
      rw [List.append_nil]
      exact hlast ha (hquiet rfl)
    | _ => cases ha

theorem LinkedLast.step {t : Task} {l : List WaitMark} {s s' : State} {x : Action}
    (hi : LinkedLast t l s) (hl : LocalInv s) (h : step s x = some s') :
    LinkedLast t (l ++ waitMarks t s x) s' := by
  obtain ⟨e, p, hm, rfl⟩ := step_eq_some.mp h
  intro a ha hk
  rw [goto_sched] at hk
  by_cases ht : x.task = t
  · subst ht
    rcases holds_goto.mp ha with ⟨_, hp⟩ | ⟨h, _⟩
    · exact hi.own hl hm hp hk
    · exact absurd rfl h
  · have htx : t ≠ x.task := fun h => ht h.symm
    rw [waitMarks_of_ne ht, List.append_nil]
    refine hi a ?_ ?_
    · rcases holds_goto.mp ha with ⟨h, _⟩ | ⟨_, h⟩
      · exact absurd h htx
      · exact h
    · rcases apply_sched_of_ne_cases s x.task e htx with hs | hs
      · rwa [hs] at hk
      · rw [hs] at hk
        rcases wake_cases (s.sched t) with ⟨_, hw⟩ | ⟨_, _, hw⟩ | ⟨_, _, hw⟩ <;> rw [hw] at hk
        · exact hk
        · exact hk
        · cases hk

theorem linkedLast_run {t : Task} {s s' : State} {xs : List Action} {ok : State → Action → Prop}
    (hrun : Run step ok s xs s') (hl : LocalInv s) {l : List WaitMark} (hi : LinkedLast t l s) :
    LinkedLast t (l ++ observe step (waitMarks t) s xs) s' :=
  (hrun.observed (waitMarks t) (fun l s => LocalInv s ∧ LinkedLast t l s) ⟨hl, hi⟩
    fun _ _ _ _ h _ hst => ⟨h.1.step hst, h.2.step h.1 hst⟩).2

/-- Membership in the wait queues is exact: no task has two entries; an entry belongs to a
task inside a wait on that event, after `prepare_to_wait` and before `finish_wait`; a
blocked task has its entry on the queue; and a task that has come to its return statement
has none. -/
theorem queue_membership_exact (mem : Addr → Event) (user : Task → UserMem) (xs : List Action)
    (s : State) (hrun : Run step NoClose (doeventInit mem user) xs s) :
    (s.eventlist.flatMap fun a => (s.mem a).queue).Nodup ∧
    (∀ a ∈ s.eventlist, ∀ t ∈ (s.mem a).queue, s.holds t .waiting a ∧
      (observe step (waitMarks t) (doeventInit mem user) xs).getLast? = some (.prepared a)) ∧
    (∀ t a, s.blockedOn t a → a ∈ s.eventlist ∧ t ∈ (s.mem a).queue) ∧
    ∀ t, (s.pc t = .user ∨ ∃ r, s.pc t = .ret r) →
      (s.sched t).linked = false ∧ ∀ a ∈ s.eventlist, t ∉ (s.mem a).queue := by
  have hi := (openInv_run hrun (doeventInit_openInv mem user) fun _ _ h => h).queue
  refine ⟨?_, ?_, ?_, ?_⟩
  · refine List.nodup_flatMap.mpr ⟨hi.entries.nodup, ?_⟩
    -- Two queues share no task, since a task waits on one event at a time.
    refine hi.list.nodup.imp_of_mem fun ha hb hne => ?_
    intro t hta htb
    exact hne (holds_unique (hi.entries.queued t _ ha hta).1 (hi.entries.queued t _ hb htb).1).2
  · intro a ha t ht
    obtain ⟨hw, hl⟩ := hi.entries.queued t a ha ht
    have hstart : LinkedLast t [] (doeventInit mem user) := fun a hw => by cases hw
    exact ⟨hw, linkedLast_run hrun (doeventInit_localInv mem user) hstart a hw hl⟩
  · intro t a hb
    have hw : s.holds t .waiting a := holds_of_pc hb.1 rfl
    have hlocal := hi.own t
    rw [hb.1] at hlocal
    exact ⟨hi.waiting t a hw, hi.linked t a hw (hlocal.1 hb.2.2).1⟩
  · intro t hpc
    have hnone : (s.pc t).hold = none := by
      rcases hpc with hpc | ⟨r, hpc⟩ <;> rw [hpc] <;> rfl
    refine ⟨(hi.own t).unlinked hnone, fun a ha ht => ?_⟩
    have hw := (hi.entries.queued t a ha ht).1
    rw [State.holds, hnone] at hw
    cases hw

/-- Task 1 sleeps on event 0, a POSIX signal wakes it, and it comes to its return
statement. -/
def interruptedRun : List Action :=
  opens 0 rootCred 1 ++ [.call 1 rootCred (.doeventwait 0)] ++ runs 1 7 ++ [.posix 1] ++ runs 1 5

theorem queue_membership_exact_interrupted :
    ∃ s, Run step NoClose boot interruptedRun s ∧ s.eventlist = [1] ∧ s.pc 1 = .ret 1 ∧
      1 ∉ (s.mem 1).queue := by
  have hrun : ∃ s, Run step NoClose boot interruptedRun s ∧
      decide (s.eventlist = [1] ∧ s.pc 1 = .ret 1) = true :=
    Run.of_test (fun _ x => Action.callIn notClose x) _ (by decide) fun _ _ h => h
  obtain ⟨s, hr, ht⟩ := hrun
  obtain ⟨hlist, hpc⟩ := of_decide_eq_true ht
  refine ⟨s, hr, hlist, hpc, ?_⟩
  exact ((queue_membership_exact bootMem bootUser interruptedRun s hr).2.2.2 1 (.inr ⟨1, hpc⟩)).2 1
    (by simp [hlist])

/-! ### The return value -/

/-- The stores `condition := 1` on the record at `a`: by whom, and with which id there. -/
def raises (a : Addr) (s : State) : Action → List (Task × Int32)
  | .run g =>
    match s.pc g with
    | .sigWrite b => if b = a then [(g, (s.mem a).id)] else []
    | .closeWrite b process => if b = a ∧ process = true then [(g, (s.mem a).id)] else []
    | _ => []
  | _ => []

/-- Task `t`, inside its wait on `a`, finds no POSIX signal pending when it tests for one,
and no open makes a new event of the record. -/
structure WaitApart (t : Task) (a : Addr) (s : State) (x : Action) : Prop where
  unsignalled : x = .run t → s.pc t = .waitSignal a → (s.sched t).sigPending = false
  notReused : ∀ u c, x = .run u → s.pc u ≠ .openWrite c a

section
variable {t : Task} {a : Addr} {s s' : State} {x : Action} {e : Effect} {p : Pc}

theorem WaitApart.not_opened (hx : WaitApart t a s x) (hm : Move s x e p) (c : Cred) :
    e ≠ .openSection c a := by
  rintro rfl
  have hpc := hm.origin.1
  cases hm with
  | run u e p hrq hnext => exact hx.notReused u c rfl hpc

theorem WaitApart.id_kept (hx : WaitApart t a s x) (h : step s x = some s') :
    (s'.mem a).id = (s.mem a).id := by
  obtain ⟨e, p, hm, rfl⟩ := step_eq_some.mp h
  have hopen := hx.not_opened hm
  rw [goto_mem, apply_id]
  cases e with
  | openSection c b =>
    have hab : a ≠ b := fun hab => hopen c (hab ▸ rfl)
    simp [hab]
  | _ => rfl

/-- The condition stays 0 unless somebody stores 1. -/
theorem Move.raises (hm : Move s x e p) (h0 : (s.mem a).condition = 0) :
    ((apply s x.task e).mem a).condition = 0 ∨ ∃ g, raises a s x = [(g, (s.mem a).id)] := by
  have ho := hm.origin
  rw [apply_condition]
  cases e with
  | openSection c b => exact .inl (by simp [h0])
  | setCondition b v =>
    by_cases hab : a = b
    · subst hab
      cases hm with
      | run u e p hrq hnext =>
        rw [Action.task] at ho
        rcases ho with ⟨rfl, _⟩ | ⟨rfl, hpc, _⟩
        · exact .inl (by simp)
        · exact .inr ⟨u, by simp [DoEvent.raises, hpc]⟩
    · exact .inl (by simp [hab, h0])
  | closeSection b process =>
    by_cases hab : a = b ∧ process = true
    · obtain ⟨rfl, rfl⟩ := hab
      cases hm with
      | run u e p hrq hnext =>
        rw [Action.task] at ho
        exact .inr ⟨u, by simp [DoEvent.raises, ho.1]⟩
    · exact .inl (by simp only [if_neg hab, h0])
  | _ => exact .inl h0

/-- Inside its loop with the condition at 0, a task that finds no signal pending stays in
the loop. -/
theorem WaitApart.loops (hx : WaitApart t a s x) (hm : Move s x e p) (hl : (s.pc t).loops = some a)
    (h0 : (s.mem a).condition = 0) :
    (((apply s x.task e).goto x.task p).pc t).loops = some a := by
  by_cases ht : t = x.task
  · subst ht
    rw [goto_pc, Function.update_self]
    cases hm with
    | call u c k hpc | nomem u c hpc | kmalloc u c b hpc hfree =>
      rw [Action.task, hpc] at hl
      cases hl
    | posix u | deliver u hpc => exact hl
    | run u e p hrq hnext =>
      have hf := Flow.of_next hnext
      have hsig := hx.unsignalled rfl
      rw [Action.task] at hl hsig
      generalize hpc : s.pc u = q at hf hl hsig
      cases hf with
      | waitPast b h | waitLeave b h =>
        cases hl
        exact absurd h0 h
      | waitSignalled b h =>
        cases hl
        rw [hsig rfl] at h
        cases h
      | _ => first | exact hl | cases hl
  · simpa [ht] using hl

end

/-- A wait that looked up the event with id `i` and returns 1 has been released: after its
own `condition := 0` a sig or a close has stored 1 in the condition of that event. -/
theorem wait_reports_release (s s₁ : State) (t : Task) (c : Cred) (i : Int32) (a : Addr)
    (hread : s.pc t = .waitRead c i) (hfound : step s (.run t) = some s₁)
    (ha : s₁.pc t = .waitReset a) (xs : List Action) (m m' : State)
    (hxs : Run step (WaitApart t a) s₁ xs m) (hpc : m.pc t = .waitReset a)
    (hreset : step m (.run t) = some m') (ys : List Action) (n : State)
    (hys : Run step (WaitApart t a) m' ys n) (hret : n.pc t = .ret 1) :
    ∃ g, (g, i) ∈ observe step (raises a) m' ys := by
  have hid₁ : (s₁.mem a).id = i := by
    obtain ⟨e, p, hf, rfl⟩ := step_run hfound
    rw [hread] at hf
    cases hf with
    | waitMiss c i h => simp at ha
    | waitFound c i b h =>
      have hba : b = a := by simpa using ha
      subst hba
      exact (readSection_some h).2.1
  have hidm : (m.mem a).id = i :=
    hxs.invariant (fun s => (s.mem a).id = i) hid₁ fun _ _ _ hid hx hst => (hx.id_kept hst).trans hid
  have hstart : (m'.mem a).id = i ∧ (m'.pc t).loops = some a ∧ (m'.mem a).condition = 0 := by
    obtain ⟨e, p, hf, rfl⟩ := step_run hreset
    rw [hpc] at hf
    cases hf
    refine ⟨?_, by simp [Pc.loops], by simp [apply_condition]⟩
    rw [goto_mem, apply_id]
    exact hidm
  have hend := hys.observed (raises a) (fun l s => (s.mem a).id = i ∧
    (((s.pc t).loops = some a ∧ (s.mem a).condition = 0) ∨ ∃ g, (g, i) ∈ l))
    (l := []) ⟨hstart.1, .inl hstart.2⟩ ?_
  · rw [List.nil_append] at hend
    refine hend.2.resolve_left fun hloop => ?_
    rw [hret] at hloop
    cases hloop.1
  · intro l s x s' hi hx hst
    obtain ⟨hid, hcase⟩ := hi
    refine ⟨(hx.id_kept hst).trans hid, ?_⟩
    rcases hcase with ⟨hl, h0⟩ | ⟨g, hg⟩
    · obtain ⟨e, p, hm, rfl⟩ := step_eq_some.mp hst
      rcases hm.raises h0 with h0' | ⟨g, hg⟩
      · exact .inl ⟨hx.loops hm hl h0, h0'⟩
      · exact .inr ⟨g, by rw [hg, hid]; simp⟩
    · exact .inr ⟨g, List.mem_append_left _ hg⟩

def waitApartTest (t : Task) (a : Addr) (s : State) (x : Action) : Bool :=
  match x with
  | .run u => match s.pc u with
    | .waitSignal b => u != t || b != a || !(s.sched t).sigPending
    | .openWrite _ b => b != a
    | _ => true
  | _ => true

theorem waitApart_of_test {t : Task} {a : Addr} {s : State} {x : Action}
    (h : waitApartTest t a s x = true) : WaitApart t a s x := by
  constructor
  · rintro rfl hpc
    simpa [waitApartTest, hpc] using h
  · rintro u c rfl hpc
    simp [waitApartTest, hpc] at h

/-- Task 1 is about to look up event 0. -/
def waitEntered : List Action := opens 0 rootCred 1 ++ [.call 1 rootCred (.doeventwait 0)]

/-- After its `condition := 0` task 1 goes to sleep, task 0 signals, and task 1 comes to its
return statement. -/
def signalledTail : List Action :=
  runs 1 5 ++ [.call 0 rootCred (.doeventsig 0)] ++ runs 0 5 ++ runs 1 4

theorem wait_reports_release_signal :
    ∃ s s₁ m' n, Run step AnyStep boot waitEntered s ∧ step s (.run 1) = some s₁ ∧
      step s₁ (.run 1) = some m' ∧ Run step (WaitApart 1 1) m' signalledTail n ∧ n.pc 1 = .ret 1 ∧
      ∃ g, (g, 0) ∈ observe step (raises 1) m' signalledTail := by
  have hrun : ∃ s, Run step AnyStep boot waitEntered s ∧
      (s.pc 1 == .waitRead rootCred 0 && (step s (.run 1)).any fun s₁ => s₁.pc 1 == .waitReset 1 &&
        (step s₁ (.run 1)).any fun m' =>
          (steps step (waitApartTest 1 1) m' signalledTail).map (fun n => n.pc 1 == .ret 1) ==
            some true) = true :=
    Run.of_test (fun _ _ => true) _ (by decide) fun _ _ _ => trivial
  obtain ⟨s, hr, ht⟩ := hrun
  simp only [Bool.and_eq_true, beq_iff_eq, Option.any_eq_true] at ht
  obtain ⟨hread, s₁, hfound, ha, m', hreset, htail⟩ := ht
  obtain ⟨n, hn, hret⟩ := Run.of_test _ _ htail fun _ _ h => waitApart_of_test h
  have hret : n.pc 1 = .ret 1 := beq_iff_eq.mp hret
  exact ⟨s, s₁, m', n, hr, hfound, hreset, hn, hret,
    wait_reports_release s s₁ 1 rootCred 0 1 hread hfound ha [] s₁ m' (.nil s₁) ha hreset signalledTail
      n hn hret⟩

/-- After its `condition := 0` task 1 goes to sleep, a POSIX signal wakes it, and it comes to
its return statement. -/
def interruptedTail : List Action := runs 1 5 ++ [.posix 1] ++ runs 1 5

theorem interrupted_wait_returns_one :
    ¬ ∀ mem user xs m, Run step AnyStep (doeventInit mem user) xs m →
      ∀ t a m', m.pc t = .waitReset a → step m (.run t) = some m' →
      ∀ ys n, Run step AnyStep m' ys n → (∀ c k, .call t c k ∉ ys) → n.pc t = .ret 1 →
        ∃ g i, (g, i) ∈ observe step (raises a) m' ys := by
  intro hclaim
  have hrun : ∃ m, Run step AnyStep boot (waitEntered ++ runs 1 1) m ∧
      (m.pc 1 == .waitReset 1 && (step m (.run 1)).any fun m' =>
        (steps step (fun _ _ => true) m' interruptedTail).map (fun n => n.pc 1 == .ret 1) == some true &&
          (observe step (raises 1) m' interruptedTail).isEmpty) = true :=
    Run.of_test (fun _ _ => true) _ (by decide) fun _ _ _ => trivial
  obtain ⟨m, hr, ht⟩ := hrun
  simp only [Bool.and_eq_true, beq_iff_eq, Option.any_eq_true, List.isEmpty_iff] at ht
  obtain ⟨hpc, m', hreset, htail, hnone⟩ := ht
  obtain ⟨n, hn, hret⟩ := Run.of_test _ _ htail fun s x _ => (trivial : AnyStep s x)
  obtain ⟨g, i, hmem⟩ := hclaim bootMem bootUser _ m hr 1 1 m' hpc hreset interruptedTail n hn
    (by simp [interruptedTail, runs]) (beq_iff_eq.mp hret)
  rw [hnone] at hmem
  cases hmem

end DoEvent
