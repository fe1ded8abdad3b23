import DoEvent.Waiters

/-!
# Signals against the wait loop

A waiter that has passed its second test of `condition` is committed: it will go off the
run queue unless its state is set back to running first. The signaller stores first and
wakes afterwards, the waiter enqueues first and tests afterwards; `SleepInv` is what
this order buys. The store `condition := 0` at the start of every wait is not part of
that protocol, and it takes a signal away from the waiters that have not retested yet.
-/

namespace DoEvent

open Transition

/-! ### Runs without close -/

def notClose (k : Kind) : Bool := k != .doeventclose

def NoClose (_ : State) (x : Action) : Prop := x.callIn notClose = true

theorem noUnlink_of_callsIn {s : State} (hi : CallsIn notClose s) (x : Action) : NoUnlink s x := by
  rintro b ⟨t, process, rfl, hpc⟩
  have h := hi t .doeventclose (by rw [hpc]; rfl)
  cases h

/-! ### The lost wake-up argument -/

/-- Past the second test of the condition of `a`, and not yet back from `schedule()`. -/
def Pc.committed : Pc → Option Addr
  | .waitSignal e | .waitSchedule e | .waitAsleep e => some e
  | _ => none

/-- Some signaller has stored the condition of `a` and not yet called `wake_up_all`. -/
def PendingWake (s : State) (a : Addr) : Prop := ∃ g n, s.pc g = .sigWake a n

def SleepInv (s : State) : Prop :=
  ∀ t a, (s.pc t).committed = some a → (s.sched t).state = .interruptible →
    (s.mem a).condition ≠ 0 → PendingWake s a

theorem Move.committed {s : State} {x : Action} {e : Effect} {p : Pc} {a : Addr}
    (hm : Move s x e p) (hp : p.committed = some a) :
    (p = s.pc x.task ∧ (e = .posix ∨ e = .deliver)) ∨
    (s.pc x.task = .waitRetest a ∧ e = .skip ∧ (s.mem a).condition = 0) ∨
    (s.pc x.task = .waitSignal a ∧ p = .waitSchedule a ∧ e = .skip) ∨
    (s.pc x.task = .waitSchedule a ∧ p = .waitAsleep a ∧ e = .schedule) := by
  cases hm with
  | call t c k hpc => cases k <;> simp only [entry] at hp <;> (try split at hp) <;> cases hp
  | nomem t c hpc | kmalloc t c a hpc hfree => cases hp
  | posix t => exact .inl ⟨rfl, .inl rfl⟩
  | deliver t hpc => exact .inl ⟨rfl, .inr rfl⟩
  | run t e p hrq hnext =>
    have hf := Flow.of_next hnext
    simp only [Action.task]
    generalize hpc : s.pc t = q at hf
    cases hf with
    | waitCommit b hc =>
      cases hp
      exact .inr (.inl ⟨rfl, rfl, hc⟩)
    | waitUnsignalled b hc =>
      cases hp
      exact .inr (.inr (.inl ⟨rfl, rfl, rfl⟩))
    | waitSchedule b =>
      cases hp
      exact .inr (.inr (.inr ⟨rfl, rfl, rfl⟩))
    | _ => cases hp

theorem LocalOk.linked_of_committed {pc : Pc} {p : Sched} {a : Addr} (h : LocalOk pc p)
    (hc : pc.committed = some a) (hs : p.state = .interruptible) : p.linked = true := by
  cases pc with
  | waitSignal e | waitSchedule e => exact h.2
  | waitAsleep e =>
    by_cases hr : p.onRq = true
    · rw [h.2 hr] at hs
      cases hs
    · exact (h.1 (by simpa using hr)).1
  | _ => cases hc

theorem hold_of_committed {p : Pc} {a : Addr} (hc : p.committed = some a) :
    p.hold = some (.waiting, a) := by
  cases p <;> first | (cases hc; done) | (cases hc; rfl)

theorem Move.of_sigWake {s : State} {x : Action} {e : Effect} {p : Pc} {a : Addr} {n : ℕ}
    (hm : Move s x e p) (hpc : s.pc x.task = .sigWake a n) :
    (p = .sigWake a n ∧ e = .posix) ∨ e = .wakeUpAll a := by
  cases hm with
  | call t c k h | nomem t c h | kmalloc t c b h hfree | deliver t h =>
    rw [Action.task] at hpc
    rw [hpc] at h
    cases h
  | posix t => exact .inl ⟨hpc, rfl⟩
  | run t e p hrq hnext =>
    rw [Action.task] at hpc
    rw [hpc] at hnext
    cases hnext
    exact .inr rfl

theorem Move.condition {s : State} {x : Action} {e : Effect} {p : Pc} {a : Addr} (hm : Move s x e p)
    (hn : NoUnlink s x) (hc : ((apply s x.task e).mem a).condition ≠ 0) :
    (s.mem a).condition ≠ 0 ∨ ∃ n, p = .sigWake a n := by
  have ho := hm.origin
  rw [apply_condition] at hc
  cases e with
  | setCondition b v =>
    by_cases hab : a = b
    · subst hab
      rcases ho with ⟨rfl, _⟩ | ⟨_, _, rfl⟩
      · simp at hc
      · exact .inr ⟨_, rfl⟩
    · exact .inl (by simpa [hab] using hc)
  | openSection c b =>
    by_cases hab : a = b
    · simp [hab] at hc
    · exact .inl (by simpa [hab] using hc)
  | closeSection b process => exact absurd hm.unlinks (hn b)
  | _ => exact .inl hc

theorem SleepInv.step {s s' : State} {x : Action} (hi : SleepInv s) (hq : QueueInv s)
    (hn : NoUnlink s x) (h : step s x = some s') : SleepInv s' := by
  obtain ⟨e, p, hm, rfl⟩ := step_eq_some.mp h
  intro u a hpc hs hc
  rw [goto_mem] at hc
  rw [goto_sched] at hs
  -- A pending wake-up is still pending unless this step is the wake-up itself.
  have hkeep : PendingWake s a →
      PendingWake ((apply s x.task e).goto x.task p) a ∨ e = .wakeUpAll a := by
    rintro ⟨g, n, hg⟩
    by_cases hgx : g = x.task
    · subst hgx
      rcases hm.of_sigWake hg with ⟨hp, _⟩ | he
      · exact .inl ⟨x.task, n, by simpa using hp⟩
      · exact .inr he
    · exact .inl ⟨g, n, by simpa [hgx] using hg⟩
  rcases hm.condition hn hc with hc | ⟨n, hp⟩
  swap
  · exact ⟨x.task, n, by simpa using hp⟩
  by_cases hu : u = x.task
  · subst hu
    have hp : p.committed = some a := by simpa using hpc
    have hown : (s.pc x.task).committed = some a → (s.sched x.task).state = .interruptible →
        e ≠ .wakeUpAll a → PendingWake ((apply s x.task e).goto x.task p) a := by
      intro h1 h2 h3
      exact (hkeep (hi _ a h1 h2 hc)).resolve_right h3
    rw [apply_sched_self] at hs
    rcases hm.committed hp with ⟨rfl, rfl | rfl⟩ | ⟨_, _, h0⟩ | ⟨h1, _, rfl⟩ | ⟨h1, _, rfl⟩
    · rcases signalWakeUp_cases (s.sched x.task) with ⟨h, hw⟩ | ⟨_, _, hw⟩ | ⟨_, _, hw⟩ <;>
        rw [hw] at hs
      · rw [h] at hs
        cases hs
      · cases hs
      · cases hs
    · exact hown hp hs (by simp)
    · exact absurd h0 hc
    · exact hown (by rw [h1]; rfl) hs (by simp)
    · refine hown (by rw [h1]; rfl) ?_ (by simp)
      by_contra hr
      have hrun : (s.sched x.task).state = .running := by
        cases hst : (s.sched x.task).state with
        | running => rfl
        | interruptible => exact absurd hst hr
      simp [schedule, hrun] at hs
  · have hpu : (s.pc u).committed = some a := by simpa [hu] using hpc
    rw [apply_sched_of_ne s x.task e hu] at hs
    have hsu : (s.sched u).state = .interruptible := by
      split at hs
      · split at hs
        · simp at hs
        · exact hs
      · exact hs
    rcases hkeep (hi u a hpu hsu hc) with hw | rfl
    · exact hw
    -- The wake-up reaches `u`, whose entry is on the queue.
    · have hmem := hq.linked u a (hold_of_committed hpu) ((hq.own u).linked_of_committed hpu hsu)
      simp [Effect.wakes, hmem] at hs

structure OpenInv (s : State) : Prop where
  calls : CallsIn notClose s
  queue : QueueInv s
  sleep : SleepInv s

theorem OpenInv.step {s s' : State} {x : Action} (hi : OpenInv s) (hx : NoClose s x)
    (h : step s x = some s') : OpenInv s' :=
  have hn := noUnlink_of_callsIn hi.calls x
  ⟨hi.calls.step hx h, hi.queue.step hn h, hi.sleep.step hi.queue hn h⟩

theorem doeventInit_openInv (mem : Addr → Event) (user : Task → UserMem) :
    OpenInv (doeventInit mem user) where
  calls := fun _ _ h => by cases h
  queue := doeventInit_queueInv mem user
  sleep := fun _ _ h => by cases h

theorem openInv_run {ok : State → Action → Prop} {s s' : State} {xs : List Action}
    (h : Run step ok s xs s') (hi : OpenInv s) (hok : ∀ s x, ok s x → NoClose s x) : OpenInv s' :=
  h.invariant OpenInv hi fun s x _ hi hx hstep => hi.step (hok s x hx) hstep

/-- No task sleeps past a set condition: a task that is blocked while the condition of its
event is set has a wake-up of that event's queue coming. That wake-up makes every blocked
task of the queue runnable and takes it off; a task on the run queue keeps its entry. -/
theorem no_sleep_past_condition (mem : Addr → Event) (user : Task → UserMem) (xs : List Action)
    (s : State) (hrun : Run step NoClose (doeventInit mem user) xs s) :
    (∀ t a, s.blockedOn t a → (s.mem a).condition ≠ 0 → PendingWake s a) ∧
    ∀ a ∈ s.eventlist, ∀ t ∈ (s.mem a).queue,
      ((s.sched t).onRq = false → ((wakeUpAll s a).sched t).onRq = true ∧
        ((wakeUpAll s a).sched t).state = .running ∧ t ∉ ((wakeUpAll s a).mem a).queue) ∧
      ((s.sched t).onRq = true → (wakeUpAll s a).sched t = { s.sched t with state := .running } ∧
        t ∈ ((wakeUpAll s a).mem a).queue) := by
  have hi := openInv_run hrun (doeventInit_openInv mem user) fun _ _ h => h
  refine ⟨?_, ?_⟩
  · rintro t a ⟨hpc, hs, _⟩ hc
    exact hi.sleep t a (by rw [hpc]; rfl) hs hc
  · intro a ha t ht
    have hsched : (wakeUpAll s a).sched t = wake (s.sched t) := by
      rw [wakeUpAll_sched, if_pos ht]
    have hqueue : t ∈ ((wakeUpAll s a).mem a).queue ↔ (tryToWakeUp (s.sched t)).2 = false := by
      have hm := mem_wakeUpCommon (hi.queue.entries.nodup a ha) s.sched t
      simp only [wakeUpAll, modify_mem, Function.update_self, hm, ht, true_and]
    rw [hsched, hqueue]
    constructor
    · intro hr
      have hstate := (hi.queue.own t).interruptible_of_blocked hr
      simp [wake_asleep _ hstate hr, tryToWakeUp, hstate, hr]
    · intro hr
      rcases wake_cases (s.sched t) with ⟨hs, h⟩ | ⟨hs, _, h⟩ | ⟨_, hf, _⟩
      · rw [h]
        exact ⟨by rw [← hs], by simp [tryToWakeUp, hs]⟩
      · exact ⟨h, by simp [tryToWakeUp, hs, hr]⟩
      · rw [hr] at hf
        cases hf

/-- Task 1 waits on event 0, and task 0 signals it up to its `wake_up_all`. -/
def signalRun : List Action :=
  opens 0 rootCred 1 ++ [.call 1 rootCred (.doeventwait 0)] ++ runs 1 7 ++
    [.call 0 rootCred (.doeventsig 0)] ++ runs 0 3

theorem signalRun_blocked :
    ∃ s, Run step NoClose boot signalRun s ∧ s.blockedOn 1 1 ∧ (s.mem 1).condition ≠ 0 := by
  have hrun : ∃ s, Run step NoClose boot signalRun s ∧
      decide (s.blockedOn 1 1 ∧ (s.mem 1).condition ≠ 0) = true :=
    Run.of_test (fun _ x => Action.callIn notClose x) _ (by decide) fun _ _ h => h
  obtain ⟨s, hr, ht⟩ := hrun
  exact ⟨s, hr, of_decide_eq_true ht⟩

theorem no_sleep_past_condition_signalRun :
    ∃ s, Run step NoClose boot signalRun s ∧ s.blockedOn 1 1 ∧ (s.mem 1).condition ≠ 0 ∧
      PendingWake s 1 := by
  obtain ⟨s, hr, hb, hc⟩ := signalRun_blocked
  exact ⟨s, hr, hb, hc, (no_sleep_past_condition bootMem bootUser signalRun s hr).1 1 1 hb hc⟩

/-! ### Released waiters

A waiter that has been woken leaves its loop at its next test, provided that the condition
is still set then. -/

/-- Inside the loop: past the store `condition := 0`, and not yet on the way out. -/
def Pc.loops : Pc → Option Addr
  | .waitTest e | .waitPrepare e | .waitRetest e | .waitSignal e | .waitSchedule e
  | .waitAsleep e => some e
  | _ => none

/-- As long as `t` is in its loop on `a` the condition is set, and `t` is not about to
block. -/
structure Released (s : State) (t : Task) (a : Addr) : Prop where
  kept : (s.pc t).loops = some a → (s.mem a).condition ≠ 0
  awake : (s.pc t).committed = some a → (s.sched t).state = .running

theorem loops_of_committed {p : Pc} {a : Addr} (h : p.committed = some a) : p.loops = some a := by
  cases p <;> first | exact h | cases h

theorem Move.loops {s : State} {x : Action} {e : Effect} {p : Pc} {a : Addr} (hm : Move s x e p)
    (hp : p.loops = some a) : (s.pc x.task).loops = some a ∨ s.pc x.task = .waitReset a := by
  cases hm with
  | call t c k hpc => cases k <;> simp only [entry] at hp <;> (try split at hp) <;> cases hp
  | nomem t c hpc | kmalloc t c a hpc hfree => cases hp
  | posix t | deliver t hpc => exact .inl hp
  | run t e p hrq hnext =>
    have hf := Flow.of_next hnext
    simp only [Action.task]
    generalize hpc : s.pc t = q at hf
    cases hf with
    | waitReset b =>
      cases hp
      exact .inr rfl
    | _ => first | exact .inl hp | cases hp

/-- A condition is cleared only by a new wait, or by an open on its own record. -/
theorem Move.cleared {s : State} {x : Action} {e : Effect} {p : Pc} {a : Addr} (hm : Move s x e p)
    (hc : (s.mem a).condition ≠ 0) (h0 : ((apply s x.task e).mem a).condition = 0) :
    (x = .run x.task ∧ s.pc x.task = .waitReset a) ∨ s.holds x.task .opening a := by
  have ho := hm.origin
  rw [apply_condition] at h0
  cases e with
  | setCondition b v =>
    have hab : a = b := by
      by_contra hab
      exact hc (by simpa [hab] using h0)
    subst hab
    rcases ho with ⟨_, hpc, _⟩ | ⟨rfl, _⟩
    · cases hm with
      | run t e p hrq hnext => exact .inl ⟨rfl, hpc⟩
    · simp at h0
  | openSection c b =>
    have hab : a = b := by
      by_contra hab
      exact hc (by simpa [hab] using h0)
    subst hab
    exact .inr (holds_of_pc ho.1 rfl)
  | closeSection b process =>
    simp only at h0
    split at h0
    · cases h0
    · exact absurd h0 hc
  | _ => exact absurd h0 hc

theorem Released.step {s s' : State} {x : Action} {t : Task} {a : Addr} (hr : Released s t a)
    (hpc : s.pc t ≠ .waitReset a)
    (hkeep : (s.pc t).loops = some a → (s'.mem a).condition ≠ 0) (h : step s x = some s') :
    Released s' t a := by
  obtain ⟨e, p, hm, rfl⟩ := step_eq_some.mp h
  have hloops : (((apply s x.task e).goto x.task p).pc t).loops = some a →
      (s.pc t).loops = some a := by
    intro hl
    by_cases ht : t = x.task
    · subst ht
      exact (hm.loops (by simpa using hl)).resolve_right hpc
    · simpa [ht] using hl
  refine ⟨fun hl => hkeep (hloops hl), ?_⟩
  intro hc
  have hcond := hr.kept (hloops (loops_of_committed hc))
  rw [goto_sched]
  by_cases ht : t = x.task
  · subst ht
    have hp : p.committed = some a := by simpa using hc
    rw [apply_sched_self]
    rcases hm.committed hp with ⟨rfl, rfl | rfl⟩ | ⟨_, _, h0⟩ | ⟨h1, _, rfl⟩ | ⟨h1, _, rfl⟩
    · rcases signalWakeUp_cases (s.sched x.task) with ⟨h, hw⟩ | ⟨_, _, hw⟩ | ⟨_, _, hw⟩ <;>
        rw [hw]
      exact h
    · exact hr.awake hp
    · exact absurd h0 hcond
    · exact hr.awake (by rw [h1]; rfl)
    · have hrun := hr.awake (by rw [h1]; rfl)
      simp [schedule, hrun]
  · have hrun := hr.awake (by simpa [ht] using hc)
    rcases apply_sched_of_ne_cases s x.task e ht with hs | hs <;> rw [hs]
    · exact hrun
    · exact wake_state _

theorem Released.not_blocked {s : State} {t : Task} {a : Addr} (hr : Released s t a) :
    ¬ s.blockedOn t a := by
  rintro ⟨hpc, hs, _⟩
  rw [hr.awake (by rw [hpc]; rfl)] at hs
  cases hs

/-- Past the store `condition := 0` of a wait on `a`, or back from the call. -/
def PastReset (a : Addr) (p : Pc) : Prop :=
  p.loops = some a ∨ p = .waitFinish a ∨ (∃ r, p = .ret r) ∨ p = .user

theorem Move.pastReset {s : State} {x : Action} {e : Effect} {p : Pc} {a : Addr}
    (hm : Move s x e p) (h : PastReset a (s.pc x.task)) (hx : ∀ c k, x ≠ .call x.task c k) :
    PastReset a p := by
  cases hm with
  | call t c k hpc => exact absurd rfl (hx c k)
  | nomem t c hpc => exact .inr (.inr (.inl ⟨_, rfl⟩))
  | kmalloc t c b hpc hfree => simp [PastReset, Action.task, hpc, Pc.loops] at h
  | posix t | deliver t hpc => exact h
  | run t e p hrq hnext =>
    have hf := Flow.of_next hnext
    simp only [Action.task] at h
    generalize hpc : s.pc t = q at hf h
    cases hf <;> simp_all [PastReset, Pc.loops]

theorem PastReset.ne_waitReset {a : Addr} {p : Pc} (h : PastReset a p) : p ≠ .waitReset a := by
  rintro rfl
  simp [PastReset, Pc.loops] at h

def isSignalCall (k : Kind) : Bool := k == .doeventopen || k == .doeventwait || k == .doeventsig

/-- Only open, wait and sig are called, and no POSIX signal arrives. -/
def SignalCalls (_ : State) (x : Action) : Prop :=
  x.callIn isSignalCall = true ∧ x.isPosix = false

instance (s : State) (x : Action) : Decidable (SignalCalls s x) :=
  inferInstanceAs (Decidable (_ ∧ _))

theorem SignalCalls.noClose {s : State} {x : Action} (h : SignalCalls s x) : NoClose s x := by
  cases x with
  | call t c k =>
    have hk := h.1
    simp only [NoClose, Action.callIn] at hk ⊢
    cases hq : k.kind <;> rw [hq] at hk <;> first | rfl | cases hk
  | _ => rfl

/-- No wait stores `condition := 0` on `a` while `t` is in its loop on `a`. -/
def KeepsCondition (t : Task) (a : Addr) (s : State) (x : Action) : Prop :=
  ∀ u, x = .run u → s.pc u = .waitReset a → (s.pc t).loops ≠ some a

theorem hold_of_loops {p : Pc} {a : Addr} (h : p.loops = some a) : p.hold = some (.waiting, a) := by
  cases p <;> first | (cases h; done) | (cases h; rfl)

theorem LocalOk.pastReset {pc : Pc} {p : Sched} {a : Addr} (h : LocalOk pc p)
    (hw : pc.hold = some (.waiting, a)) (hl : p.linked = true) : PastReset a pc := by
  cases pc with
  | waitReset e =>
    rw [h.2.2] at hl
    cases hl
  | waitFinish e =>
    cases hw
    exact .inr (.inl rfl)
  | _ => first | (cases hw; done) | (cases hw; exact .inl rfl)

/-- What holds of a counted task from the signaller's store on. -/
structure Counted (t : Task) (a : Addr) (s : State) : Prop where
  inv : OpenInv s
  past : PastReset a (s.pc t)
  kept : (s.pc t).loops = some a → (s.mem a).condition ≠ 0

theorem Counted.stays_set {s s' : State} {x : Action} {t : Task} {a : Addr} (hi : Counted t a s)
    (hk : KeepsCondition t a s x) (h : step s x = some s') (hl : (s.pc t).loops = some a) :
    (s'.mem a).condition ≠ 0 := by
  obtain ⟨e, p, hm, rfl⟩ := step_eq_some.mp h
  intro h0
  rcases hm.cleared (hi.kept hl) h0 with ⟨hx, hpc⟩ | hopen
  · exact hk _ hx hpc hl
  · have hlisted := hi.inv.queue.waiting t a (hold_of_loops hl)
    exact (hi.inv.queue.list.owned _ a (.inl hopen)).2.1 hlisted

theorem Counted.step {s s' : State} {x : Action} {t : Task} {a : Addr} (hi : Counted t a s)
    (hx : SignalCalls s x) (hk : KeepsCondition t a s x) (hcall : ∀ c k, x ≠ .call t c k)
    (h : step s x = some s') : Counted t a s' := by
  have hset := hi.stays_set hk h
  have hinv := hi.inv.step hx.noClose h
  obtain ⟨e, p, hm, rfl⟩ := step_eq_some.mp h
  by_cases ht : t = x.task
  · subst ht
    refine ⟨hinv, by simpa using hm.pastReset hi.past hcall, fun hl => hset ?_⟩
    exact (hm.loops (by simpa using hl)).resolve_right hi.past.ne_waitReset
  · exact ⟨hinv, by simpa [ht] using hi.past, fun hl => hset (by simpa [ht] using hl)⟩

theorem Counted.released {s s' : State} {g t : Task} {a : Addr} {n : ℕ} (hi : Counted t a s)
    (hi' : Counted t a s') (hg : s.pc g = .sigWake a n)
    (h : DoEvent.step s (.run g) = some s') :
    Released s' t a := by
  refine ⟨hi'.kept, ?_⟩
  obtain ⟨e, p, hf, rfl⟩ := step_run h
  rw [hg] at hf
  cases hf
  intro hc
  rw [goto_sched]
  have htg : t ≠ g := by
    rintro rfl
    simp [Pc.committed] at hc
  have hpc : (s.pc t).committed = some a := by simpa [htg] using hc
  rw [apply_sched_of_ne s g _ htg]
  simp only [Effect.wakes]
  split
  · exact wake_state _
  next hq =>
    by_contra hr
    have hs : (s.sched t).state = .interruptible := by
      cases hst : (s.sched t).state with
      | running => exact absurd hst hr
      | interruptible => rfl
    exact hq (hi.inv.queue.linked t a (hold_of_committed hpc)
      ((hi.inv.queue.own t).linked_of_committed hpc hs))

/-- A signalled waiter stays released: after a sig has counted `t` and completed its
`wake_up_all`, `t` does not block again in the same call, as long as no other wait clears
the condition while `t` is still in its loop. -/
theorem signalled_stays_released (mem : Addr → Event) (user : Task → UserMem) (xs : List Action)
    (s : State) (hreach : Run step SignalCalls (doeventInit mem user) xs s) (g t : Task) (a : Addr)
    (hsig : s.pc g = .sigWrite a) (hcounted : t ∈ (s.mem a).queue) (ys zs : List Action) (s' : State)
    (hrun : Run step (fun s x => SignalCalls s x ∧ KeepsCondition t a s x) s
      (.run g :: (ys ++ .run g :: zs)) s')
    (hwake : .run g ∉ ys) (hcall : ∀ c k, .call t c k ∉ ys ++ zs) : ¬ s'.blockedOn t a := by
  have hi := openInv_run hreach (doeventInit_openInv mem user) fun _ _ h => h.noClose
  have hal : a ∈ s.eventlist := hi.queue.signalling g a (holds_of_pc hsig rfl)
  obtain ⟨hw, hl⟩ := hi.queue.entries.queued t a hal hcounted
  have hpast := (hi.queue.own t).pastReset hw hl
  have htg : t ≠ g := by
    rintro rfl
    rw [State.holds, hsig] at hw
    cases hw
  cases hrun with
  | cons hok hstep hrest =>
    have hinv := hi.step hok.1.noClose hstep
    obtain ⟨e, p, hf, rfl⟩ := step_run hstep
    rw [hsig] at hf
    cases hf
    -- The write section has counted `t` and set the condition.
    have hstart : Counted t a ((apply s g (.setCondition a 1)).goto g
        (.sigWake a (countTasks (s.mem a).queue 0))) :=
      ⟨hinv, by simpa [htg] using hpast, fun _ => by simp [apply_condition]⟩
    obtain ⟨m, hys, hrest⟩ := hrest.split
    have hmid := (hys.restrict (fun x => x ≠ .run g ∧ ∀ c k, x ≠ .call t c k) fun x hx =>
        ⟨fun h => hwake (h ▸ hx), fun c k h => hcall c k (h ▸ List.mem_append_left _ hx)⟩).invariant
      (fun s => Counted t a s ∧ ∃ n, s.pc g = .sigWake a n) 
      ⟨hstart, countTasks (s.mem a).queue 0, by simp⟩ ?_
    · obtain ⟨hcm, n, hgm⟩ := hmid
      cases hrest with
      | cons hok hstep hzs =>
        have hcn := hcm.step hok.1 hok.2 (by simp) hstep
        have hend := (hzs.restrict (fun x => ∀ c k, x ≠ .call t c k) fun x hx c k h =>
            hcall c k (h ▸ List.mem_append_right _ hx)).invariant
          (fun s => Counted t a s ∧ Released s t a) ⟨hcn, hcm.released hcn hgm hstep⟩ ?_
        · exact hend.2.not_blocked
        · rintro s x s' ⟨hc, hr⟩ ⟨hok, hnc⟩ hstep
          exact ⟨hc.step hok.1 hok.2 hnc hstep,
            hr.step hc.past.ne_waitReset (hc.stays_set hok.2 hstep) hstep⟩
    · rintro s x s' ⟨hc, n, hg⟩ ⟨hok, hne, hnc⟩ hstep
      refine ⟨hc.step hok.1 hok.2 hnc hstep, n, ?_⟩
      rw [step_pc_of_not_run hstep hne (by rw [hg]; simp) (by rw [hg]; simp), hg]

/-! ### A wait that takes the signal away -/

/-- Task 1 is asleep on event 0, task 2 has looked the event up, and task 0 is about to
enter the write section of its sig. -/
def signalled : List Action :=
  opens 0 rootCred 1 ++ [.call 1 rootCred (.doeventwait 0)] ++ runs 1 7 ++
    [.call 2 rootCred (.doeventwait 0)] ++ runs 2 1 ++ [.call 0 rootCred (.doeventsig 0)] ++ runs 0 2

/-- Store, wake-up, and task 1 is back at the head of its loop. -/
def releasedTail : List Action := .run 0 :: ([] ++ .run 0 :: runs 1 1)

theorem releasedTail_run :
    ∃ s s', Run step SignalCalls boot signalled s ∧ s.pc 0 = .sigWrite 1 ∧
      1 ∈ (s.mem 1).queue ∧
      Run step (fun s x => SignalCalls s x ∧ KeepsCondition 1 1 s x) s releasedTail s' ∧
      s'.pc 1 = .waitPrepare 1 := by
  have hrun : ∃ s, Run step SignalCalls boot signalled s ∧
      (decide (s.pc 0 = .sigWrite 1 ∧ 1 ∈ (s.mem 1).queue) &&
        (steps step (fun s x => decide (SignalCalls s x ∧ s.pc x.task ≠ .waitReset 1)) s
          releasedTail).map (fun s' => decide (s'.pc 1 = .waitPrepare 1)) == some true) = true :=
    Run.of_test (fun s x => decide (SignalCalls s x)) _ (by decide) fun _ _ h => of_decide_eq_true h
  obtain ⟨s, hr, ht⟩ := hrun
  rw [Bool.and_eq_true, beq_iff_eq] at ht
  obtain ⟨s', hr', ht'⟩ := Run.of_test _ _ ht.2 fun s x h => by
    rw [decide_eq_true_eq] at h
    refine (⟨h.1, ?_⟩ : SignalCalls s x ∧ KeepsCondition 1 1 s x)
    rintro u rfl hpc
    exact absurd hpc h.2
  obtain ⟨hsig, hq⟩ := of_decide_eq_true ht.1
  exact ⟨s, s', hr, hsig, hq, hr', of_decide_eq_true ht'⟩

theorem signalled_stays_released_tail :
    ∃ s s', Run step SignalCalls boot signalled s ∧
      Run step (fun s x => SignalCalls s x ∧ KeepsCondition 1 1 s x) s releasedTail s' ∧
      s'.pc 1 = .waitPrepare 1 ∧ ¬ s'.blockedOn 1 1 := by
  obtain ⟨s, s', hr, hsig, hq, hr', hpc⟩ := releasedTail_run
  refine ⟨s, s', hr, hr', hpc, ?_⟩
  exact signalled_stays_released bootMem bootUser signalled s hr 0 1 1 hsig hq [] (runs 1 1) s' hr'
    (by simp) (by simp [runs])

/-- Store, wake-up, `condition := 0` of task 2, and task 1 goes once round its loop. -/
def strippedTail : List Action := .run 0 :: ([] ++ .run 0 :: .run 2 :: runs 1 5)

theorem signalled_blocks_again :
    ¬ ∀ mem user xs s, Run step SignalCalls (doeventInit mem user) xs s →
      ∀ g t a, s.pc g = .sigWrite a → t ∈ (s.mem a).queue →
      ∀ ys zs s', Run step SignalCalls s (.run g :: (ys ++ .run g :: zs)) s' →
        .run g ∉ ys → (∀ c k, .call t c k ∉ ys ++ zs) → ¬ s'.blockedOn t a := by
  intro hclaim
  have hrun : ∃ s, Run step SignalCalls boot signalled s ∧
      (decide (s.pc 0 = .sigWrite 1 ∧ 1 ∈ (s.mem 1).queue) &&
        (steps step (fun s x => decide (SignalCalls s x)) s strippedTail).map
          (fun s' => decide (s'.blockedOn 1 1)) == some true) = true :=
    Run.of_test (fun s x => decide (SignalCalls s x)) _ (by decide) fun _ _ h => of_decide_eq_true h
  obtain ⟨s, hr, ht⟩ := hrun
  rw [Bool.and_eq_true, beq_iff_eq] at ht
  obtain ⟨s', hr', ht'⟩ := Run.of_test _ _ ht.2 fun s x h => (of_decide_eq_true h : SignalCalls s x)
  obtain ⟨hsig, hq⟩ := of_decide_eq_true ht.1
  exact hclaim bootMem bootUser signalled s hr 0 1 1 hsig hq [] (.run 2 :: runs 1 5) s' hr'
    (by simp) (by simp [runs]) (of_decide_eq_true ht')

end DoEvent
