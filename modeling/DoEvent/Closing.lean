import DoEvent.Wakeups

/-!
# Closing an event under its waiters

`sys_doeventclose` looks the event up, tests the wait queue without a lock, and unlinks
the record in a later write section that wakes the queue only if that test saw it
non-empty. A waiter is on the queue only some steps after its own lookup, and it comes
back to the record after it has been woken. The two results say exactly which waiters
the close leaves behind asleep, and which ones it leaves with a freed record.
-/

namespace DoEvent

open Transition

/-! ### Records that no lookup finds -/

/-- Neither listed nor about to be listed. -/
structure Unlisted (s : State) (a : Addr) : Prop where
  absent : a ∉ s.eventlist
  unopened : ∀ t, ¬ s.holds t .opening a

theorem Unlisted.step {s s' : State} {x : Action} {a : Addr} (hi : Unlisted s a)
    (hx : ∀ u, x ≠ .kmalloc u (some a)) (h : step s x = some s') : Unlisted s' a := by
  obtain ⟨e, p, hm, rfl⟩ := step_eq_some.mp h
  have ho := hm.origin
  constructor
  · rw [goto_eventlist, apply_eventlist]
    cases e with
    | openSection c b =>
      have hab : a ≠ b := by
        rintro rfl
        exact hi.unopened x.task (holds_of_pc ho.1 rfl)
      simpa [hab] using hi.absent
    | closeSection b process => exact fun hmem => hi.absent (List.mem_of_mem_erase hmem)
    | _ => exact hi.absent
  · intro u hu
    rcases hm.holds hu with hu | ⟨_, rfl⟩
    · exact hi.unopened u hu
    · cases hm with
      | kmalloc t c b hpc hfree => exact hx t rfl
      | run t e p hrq hnext =>
        obtain ⟨c, hpc, _⟩ := ho
        rw [Action.task] at hpc
        rw [hpc] at hnext
        cases hnext

theorem Unlisted.not_found {s : State} {a : Addr} (hi : Unlisted s a) {c : Cred} {i : Int32} :
    readSection s.mem s.eventlist c i ≠ some a :=
  fun h => hi.absent (readSection_some h).1

theorem ListInv.unlisted {s : State} (hi : ListInv s) {t : Task} {a : Addr}
    (hf : s.holds t .freeing a) : Unlisted s a := by
  obtain ⟨_, hal, _⟩ := hi.owned t a (.inr hf)
  refine ⟨hal, fun u hu => ?_⟩
  have hut := hi.ownedOnce u t a (.inl hu) (.inr hf)
  subst hut
  exact absurd (holds_unique hu hf).1 (by simp)

/-! ### A task that is left to itself

With its condition at zero and no signal pending, a waiter that runs alone ends up
blocked. -/

/-- Running alone, `t` comes to sleep on `a`. -/
def CanBlock (s : State) (t : Task) (a : Addr) : Prop :=
  ∃ n s', Run step (fun _ x => x = .run t) s (runs t n) s' ∧ s'.blockedOn t a

section
variable {s s' : State} {t : Task} {a : Addr}

theorem CanBlock.head (h : step s (.run t) = some s') (hb : CanBlock s' t a) : CanBlock s t a := by
  obtain ⟨n, s'', hr, hb⟩ := hb
  exact ⟨n + 1, s'', .cons rfl h hr, hb⟩

variable (hrq : (s.sched t).onRq = true) (hsig : (s.sched t).sigPending = false)
include hrq hsig

theorem canBlock_schedule (hpc : s.pc t = .waitSchedule a)
    (hs : (s.sched t).state = .interruptible) : CanBlock s t a := by
  refine .head (step_of_flow hrq hpc (.waitSchedule a)) ⟨0, _, .nil _, ?_⟩
  simp [State.blockedOn, apply, schedule, hs, hsig]

theorem canBlock_signal (hpc : s.pc t = .waitSignal a)
    (hs : (s.sched t).state = .interruptible) : CanBlock s t a :=
  .head (step_of_flow hrq hpc (.waitUnsignalled a hsig))
    (canBlock_schedule hrq hsig (by simp) hs)

variable (hc : (s.mem a).condition = 0)
include hc

theorem canBlock_retest (hpc : s.pc t = .waitRetest a)
    (hs : (s.sched t).state = .interruptible) : CanBlock s t a :=
  .head (step_of_flow hrq hpc (.waitCommit a hc)) (canBlock_signal hrq hsig (by simp) hs)

theorem canBlock_prepare (hpc : s.pc t = .waitPrepare a) : CanBlock s t a := by
  have hsched : (apply s t (.prepareToWait a)).sched t =
      { s.sched t with linked := true, state := .interruptible } := apply_sched_self ..
  refine .head (step_of_flow hrq hpc (.waitPrepare a)) (canBlock_retest ?_ ?_ ?_ (by simp) ?_)
  · rw [goto_sched, hsched]
    exact hrq
  · rw [goto_sched, hsched]
    exact hsig
  · rw [goto_mem, apply_condition]
    exact hc
  · rw [goto_sched, hsched]

theorem canBlock_awake (hpc : s.pc t = .waitAsleep a) : CanBlock s t a :=
  .head (step_of_flow hrq hpc (.waitAwake a)) (canBlock_prepare hrq hsig hc (by simp))

/-- A waiter that was woken early goes round its loop once more. -/
theorem canBlock_schedule_awake (hpc : s.pc t = .waitSchedule a)
    (hs : (s.sched t).state = .running) : CanBlock s t a := by
  have hsched : (apply s t .schedule).sched t = s.sched t := by
    simp [apply, schedule, hs]
  refine .head (step_of_flow hrq hpc (.waitSchedule a)) (canBlock_awake ?_ ?_ hc (by simp))
  · rw [goto_sched, hsched]
    exact hrq
  · rw [goto_sched, hsched]
    exact hsig

theorem canBlock_signal_awake (hpc : s.pc t = .waitSignal a)
    (hs : (s.sched t).state = .running) : CanBlock s t a :=
  .head (step_of_flow hrq hpc (.waitUnsignalled a hsig))
    (canBlock_schedule_awake hrq hsig hc (by simp) hs)

theorem canBlock_retest_awake (hpc : s.pc t = .waitRetest a)
    (hs : (s.sched t).state = .running) : CanBlock s t a :=
  .head (step_of_flow hrq hpc (.waitCommit a hc)) (canBlock_signal_awake hrq hsig hc (by simp) hs)

theorem canBlock_test (hpc : s.pc t = .waitTest a) : CanBlock s t a :=
  .head (step_of_flow hrq hpc (.waitEnter a hc)) (canBlock_prepare hrq hsig hc (by simp))

end

theorem canBlock_reset {s : State} {t : Task} {a : Addr} (hrq : (s.sched t).onRq = true)
    (hsig : (s.sched t).sigPending = false) (hpc : s.pc t = .waitReset a) : CanBlock s t a := by
  refine .head (step_of_flow hrq hpc (.waitReset a)) (canBlock_test hrq hsig ?_ (by simp))
  rw [goto_mem, apply_condition]
  simp

theorem canBlock_waiting {s : State} {t : Task} {a : Addr} (hl : LocalOk (s.pc t) (s.sched t))
    (hsig : (s.sched t).sigPending = false) (hc : (s.mem a).condition = 0)
    (hw : s.holds t .waiting a) (hf : s.pc t ≠ .waitFinish a) : CanBlock s t a := by
  rw [State.holds] at hw
  generalize hpc : s.pc t = q at hw hl
  cases q with
  | waitReset e =>
    cases hw
    exact canBlock_reset hl.1 hsig hpc
  | waitTest e =>
    cases hw
    exact canBlock_test hl.1 hsig hc hpc
  | waitPrepare e =>
    cases hw
    exact canBlock_prepare hl.1 hsig hc hpc
  | waitRetest e =>
    cases hw
    cases hs : (s.sched t).state with
    | running => exact canBlock_retest_awake hl.1 hsig hc hpc hs
    | interruptible => exact canBlock_retest hl.1 hsig hc hpc hs
  | waitSignal e =>
    cases hw
    cases hs : (s.sched t).state with
    | running => exact canBlock_signal_awake hl.1 hsig hc hpc hs
    | interruptible => exact canBlock_signal hl.1 hsig hpc hs
  | waitSchedule e =>
    cases hw
    cases hs : (s.sched t).state with
    | running => exact canBlock_schedule_awake hl.1 hsig hc hpc hs
    | interruptible => exact canBlock_schedule hl.1 hsig hpc hs
  | waitAsleep e =>
    cases hw
    by_cases hr : (s.sched t).onRq = true
    · exact canBlock_awake hr hsig hc hpc
    · have hoff : (s.sched t).onRq = false := by simpa using hr
      exact ⟨0, s, .nil s, hpc, (hl.1 hoff).2, hoff⟩
  | waitFinish e =>
    cases hw
    exact absurd hpc hf
  | _ => cases hw

/-! ### Up to the write section of the close -/

def isWaitCall (k : Kind) : Bool := k == .doeventopen || k == .doeventwait

/-- Only open and wait are called, and no POSIX signal arrives. -/
def WaitCalls (_ : State) (x : Action) : Prop := x.callIn isWaitCall = true ∧ x.isPosix = false

instance (s : State) (x : Action) : Decidable (WaitCalls s x) :=
  inferInstanceAs (Decidable (_ ∧ _))

/-- Opens and waits by any task, closes by `c` alone, and no event unlinked yet. -/
def BeforeUnlink (c : Task) (s : State) (x : Action) : Prop :=
  (WaitCalls s x ∨ ∃ cred i, x = .call c cred (.doeventclose i)) ∧ NoUnlink s x

/-- Opens and waits, and the address `a` is not handed out again. -/
def AfterUnlink (a : Addr) (s : State) (x : Action) : Prop :=
  WaitCalls s x ∧ ∀ u, x ≠ .kmalloc u (some a)

def notSignal (k : Kind) : Bool := k != .doeventsig

/-- The invariants while nobody signals: conditions are zero, and no waiter leaves. -/
structure Calm (s : State) : Prop where
  queue : QueueInv s
  calls : CallsIn notSignal s
  unsignalled : ∀ t, (s.sched t).sigPending = false
  zero : ∀ a ∈ s.eventlist, (s.mem a).condition = 0
  inside : ∀ t a, s.pc t ≠ .waitFinish a

theorem Move.not_posix {s : State} {x : Action} {e : Effect} {p : Pc} (hm : Move s x e p)
    (hx : x.isPosix = false) : e ≠ .posix := by
  rintro rfl
  cases hm with
  | posix t => cases hx
  | run t e p hrq hnext =>
    have hf := Flow.of_next hnext
    generalize s.pc t = q at hf
    cases hf

theorem Move.unsignalled {s : State} {x : Action} {e : Effect} {p : Pc} (hm : Move s x e p)
    (hx : x.isPosix = false) {u : Task} (h : (s.sched u).sigPending = false) :
    ((apply s x.task e).sched u).sigPending = false := by
  have hne := hm.not_posix hx
  rw [apply_sigPending]
  cases e with
  | posix => exact absurd rfl hne
  | deliver =>
    dsimp only
    split
    · rfl
    · exact h
  | _ => exact h

theorem Move.waitFinish {s : State} {x : Action} {e : Effect} {p : Pc} {a : Addr}
    (hm : Move s x e p) (hp : p = .waitFinish a) :
    s.pc x.task = .waitFinish a ∨ s.holds x.task .waiting a ∧
      ((s.mem a).condition ≠ 0 ∨ (s.sched x.task).sigPending = true) := by
  cases hm with
  | call t c k hpc => cases k <;> simp only [entry] at hp <;> (try split at hp) <;> cases hp
  | nomem t c hpc | kmalloc t c b hpc hfree => cases hp
  | posix t | deliver t hpc => exact .inl hp
  | run t e p hrq hnext =>
    have hf := Flow.of_next hnext
    simp only [State.holds, Action.task]
    generalize hpc : s.pc t = q at hf
    cases hf with
    | waitLeave b hc =>
      cases hp
      exact .inr ⟨rfl, .inl hc⟩
    | waitSignalled b hc =>
      cases hp
      exact .inr ⟨rfl, .inr hc⟩
    | _ => cases hp

theorem Calm.step {s s' : State} {x : Action} (hi : Calm s) (hx : x.callIn notSignal = true)
    (hp : x.isPosix = false) (hn : NoUnlink s x) (h : step s x = some s') : Calm s' := by
  have hqueue := hi.queue.step hn h
  have hcalls := hi.calls.step hx h
  obtain ⟨e, p, hm, rfl⟩ := step_eq_some.mp h
  refine ⟨hqueue, hcalls, fun t => hm.unsignalled hp (hi.unsignalled t), ?_, ?_⟩
  · intro a ha
    by_contra hc
    rw [goto_mem] at hc
    rcases hm.condition hn hc with h0 | ⟨n, rfl⟩
    · have hal : a ∈ s.eventlist := by
        rw [goto_eventlist, apply_eventlist] at ha
        cases e with
        | openSection c b =>
          rcases List.mem_append.mp ha with ha | ha
          · exact ha
          · rw [List.mem_singleton] at ha
            simp [ha, apply_condition] at hc
        | closeSection b process => exact absurd hm.unlinks (hn b)
        | _ => exact ha
      exact h0 (hi.zero a hal)
    · have hk := hcalls x.task .doeventsig (by simp [Pc.kind])
      cases hk
  · intro t a hpc
    by_cases ht : t = x.task
    · subst ht
      have hpa : p = .waitFinish a := by simpa using hpc
      subst hpa
      rcases hm.waitFinish rfl with h | ⟨hw, hc | hs⟩
      · exact hi.inside _ a h
      · exact hc (hi.zero a (hi.queue.waiting _ a hw))
      · rw [hi.unsignalled] at hs
        cases hs
    · exact hi.inside t a (by simpa [ht] using hpc)

theorem doeventInit_calm (mem : Addr → Event) (user : Task → UserMem) :
    Calm (doeventInit mem user) where
  queue := doeventInit_queueInv mem user
  calls := fun _ _ h => by cases h
  unsignalled := fun _ => rfl
  zero := fun _ h => absurd h List.not_mem_nil
  inside := fun _ _ h => by cases h

theorem WaitCalls.notSignal {s : State} {x : Action} (h : WaitCalls s x) :
    x.callIn notSignal = true := by
  cases x with
  | call t c k =>
    have hk := h.1
    simp only [Action.callIn] at hk ⊢
    cases hq : k.kind <;> rw [hq] at hk <;> first | rfl | cases hk
  | _ => rfl

theorem calm_run {mem : Addr → Event} {user : Task → UserMem} {c : Task} {xs : List Action}
    {s : State} (h : Run step (BeforeUnlink c) (doeventInit mem user) xs s) : Calm s := by
  refine h.invariant Calm (doeventInit_calm mem user) ?_
  rintro s x s' hi ⟨hx | ⟨cred, i, rfl⟩, hn⟩ hstep
  · exact hi.step hx.notSignal hx.2 hn hstep
  · exact hi.step rfl rfl hn hstep

/-! ### After the write section -/

/-- Blocked in a wait on an event that nobody can find any more, no wake-up being due. -/
def Stranded (s : State) (t : Task) (a : Addr) : Prop :=
  s.blockedOn t a ∧ a ∉ s.eventlist ∧ ¬ PendingWake s a

/-- Every waiter on the unlinked record is past its store `condition := 0` and released. -/
structure Strandless (s : State) (a : Addr) : Prop where
  unlisted : Unlisted s a
  noReset : ∀ t, s.pc t ≠ .waitReset a
  released : ∀ t, Released s t a

theorem Strandless.step {s s' : State} {x : Action} {a : Addr} (hi : Strandless s a)
    (hx : ∀ u, x ≠ .kmalloc u (some a)) (h : step s x = some s') : Strandless s' a := by
  have hunlisted := hi.unlisted.step hx h
  have hset : ∀ t, (s.pc t).loops = some a → (s'.mem a).condition ≠ 0 := by
    intro t hl h0
    obtain ⟨e, p, hm, rfl⟩ := step_eq_some.mp h
    rcases hm.cleared ((hi.released t).kept hl) h0 with ⟨_, hpc⟩ | hopen
    · exact hi.noReset _ hpc
    · exact hi.unlisted.unopened _ hopen
  refine ⟨hunlisted, ?_, fun t => (hi.released t).step (hi.noReset t) (hset t) h⟩
  intro t hpc
  by_cases ht : t = x.task
  · subst ht
    obtain ⟨e, p, hm, rfl⟩ := step_eq_some.mp h
    have hpa : p = .waitReset a := by simpa using hpc
    subst hpa
    rcases hm.waitReset rfl with h | ⟨_, c, i, _, _, hr⟩
    · exact hi.noReset _ h
    · exact hi.unlisted.not_found hr
  · rw [step_pc_of_ne h ht] at hpc
    exact hi.noReset t hpc

section
variable {s s' : State} {c : Task} {a : Addr} {process : Bool}

theorem closeWrite_step (hpc : s.pc c = .closeWrite a process) (h : step s (.run c) = some s') :
    s' = (apply s c (.closeSection a process)).goto c
      (.closeKfree a (if process then countTasks (s.mem a).queue 0 else 0)) := by
  obtain ⟨e, p, hf, rfl⟩ := step_run h
  rw [hpc] at hf
  cases hf
  rfl

theorem closeWrite_unlisted (hi : QueueInv s) (hpc : s.pc c = .closeWrite a process)
    (h : step s (.run c) = some s') : Unlisted s' a := by
  have hal : a ∈ s.eventlist := hi.list.unlinking c a (holds_of_pc hpc rfl)
  rw [closeWrite_step hpc h]
  constructor
  · rw [goto_eventlist, apply_eventlist]
    exact fun hmem => (hi.list.nodup.mem_erase_iff.mp hmem).1 rfl
  · intro u hu
    rcases holds_goto.mp hu with ⟨_, hp⟩ | ⟨_, hu⟩
    · cases hp
    · exact (hi.list.owned u a (.inl hu)).2.1 hal

/-- The write section strands nobody if no waiter is before its store `condition := 0`
and the wake-up is done or not needed. -/
theorem closeWrite_strandless (hi : QueueInv s) (hpc : s.pc c = .closeWrite a process)
    (h : step s (.run c) = some s') (hreset : ∀ t, s.pc t ≠ .waitReset a)
    (hempty : process = false → ∀ t, ¬ s.holds t .waiting a) : Strandless s' a := by
  have hunlisted := closeWrite_unlisted hi hpc h
  have hother : ∀ t, t ≠ c → s'.pc t = s.pc t := fun t ht => step_pc_of_ne h ht
  have hself : ∃ n, s'.pc c = .closeKfree a n := by
    rw [closeWrite_step hpc h]
    exact ⟨_, by simp; rfl⟩
  refine ⟨hunlisted, ?_, ?_⟩
  · intro t
    by_cases ht : t = c
    · obtain ⟨n, hn⟩ := hself
      rw [ht, hn]
      simp
    · rw [hother t ht]
      exact hreset t
  · intro t
    by_cases hl : (s'.pc t).loops = some a
    swap
    · exact ⟨fun h => absurd h hl, fun h => absurd (loops_of_committed h) hl⟩
    have ht : t ≠ c := by
      rintro rfl
      obtain ⟨n, hn⟩ := hself
      rw [hn] at hl
      cases hl
    have hls : (s.pc t).loops = some a := by rwa [hother t ht] at hl
    -- With a waiter in its loop the test has succeeded, so the section stores and wakes.
    have hproc : process = true := by
      by_contra hp
      exact hempty (by simpa using hp) t (hold_of_loops hls)
    subst hproc
    rw [closeWrite_step hpc h]
    refine ⟨fun _ => by simp [apply_condition], fun hc => ?_⟩
    have hcs : (s.pc t).committed = some a := by simpa [ht] using hc
    rw [goto_sched, apply_sched_of_ne s c _ ht]
    simp only [Effect.wakes, if_true]
    split
    · exact wake_state _
    next hq =>
      -- A task about to block is on the queue, since its entry is still linked.
      by_contra hr
      have hs : (s.sched t).state = .interruptible := by
        cases hst : (s.sched t).state with
        | running => exact absurd hst hr
        | interruptible => rfl
      exact hq (hi.linked t a (hold_of_committed hcs) ((hi.own t).linked_of_committed hcs hs))

/-- A waiter that the write section passes over can be stranded. -/
theorem closeWrite_canBlock (hi : Calm s) (hpc : s.pc c = .closeWrite a process)
    (h : step s (.run c) = some s') {t : Task}
    (ht : s.pc t = .waitReset a ∨ process = false ∧ s.holds t .waiting a) : CanBlock s' t a := by
  have hw : s.holds t .waiting a := by
    rcases ht with ht | ⟨_, hw⟩
    · rw [State.holds, ht]
      rfl
    · exact hw
  have htc : t ≠ c := by
    rintro rfl
    rw [State.holds, hpc] at hw
    cases hw
  have hown := hi.queue.own.step h t
  have hpct := step_pc_of_ne h htc
  have hsig : (s'.sched t).sigPending = false := by
    rw [closeWrite_step hpc h, goto_sched, apply_sigPending]
    exact hi.unsignalled t
  rcases ht with ht | ⟨rfl, _⟩
  · rw [hpct, ht] at hown
    exact canBlock_reset hown.1 hsig (hpct.trans ht)
  · refine canBlock_waiting hown hsig ?_ ?_ ?_
    · rw [closeWrite_step hpc h, goto_mem, apply_condition]
      simpa using hi.zero a (hi.queue.waiting t a hw)
    · rw [State.holds, hpct]
      exact hw
    · rw [hpct]
      exact hi.inside t a

/-- After the write section nobody signals the event, so a waiter that blocks is stranded. -/
theorem closeWrite_stranded (hi : Calm s) (hpc : s.pc c = .closeWrite a process)
    (h : step s (.run c) = some s') {zs : List Action} {m : State} {t : Task}
    (hr : Run step (AfterUnlink a) s' zs m) (hb : m.blockedOn t a) : Stranded m t a := by
  have hend := hr.invariant (fun s => Unlisted s a ∧ CallsIn notSignal s)
    ⟨closeWrite_unlisted hi.queue hpc h, hi.calls.step rfl h⟩ fun _ _ _ hinv hok hst =>
      ⟨hinv.1.step hok.2 hst, hinv.2.step hok.1.notSignal hst⟩
  refine ⟨hb, hend.1.absent, ?_⟩
  rintro ⟨g, n, hg⟩
  have hk := hend.2 g .doeventsig (by rw [hg]; rfl)
  cases hk

end

/-- Closing an event strands nobody, in every continuation, exactly when at its write
section no waiter stands between its lookup and its store `condition := 0`, and, if the
unlocked test found the queue empty, no task is inside a wait on the event at all. -/
theorem close_strands_nobody_iff (mem : Addr → Event) (user : Task → UserMem) (c : Task)
    (xs : List Action) (s s₁ : State) (a : Addr) (process : Bool)
    (hreach : Run step (BeforeUnlink c) (doeventInit mem user) xs s)
    (hpc : s.pc c = .closeWrite a process) (hstep : step s (.run c) = some s₁) :
    (∀ zs s' t, Run step (AfterUnlink a) s₁ zs s' → ¬ Stranded s' t a) ↔
      (∀ t, s.pc t ≠ .waitReset a) ∧ (process = false → ∀ t, ¬ s.holds t .waiting a) := by
  have hi := calm_run hreach
  constructor
  · intro hnone
    have hno : ∀ t, ¬ (s.pc t = .waitReset a ∨ process = false ∧ s.holds t .waiting a) := by
      intro t ht
      obtain ⟨n, s', hr, hb⟩ := closeWrite_canBlock hi hpc hstep ht
      have hafter : Run step (AfterUnlink a) s₁ (runs t n) s' := by
        refine hr.mono ?_
        rintro s x rfl
        exact ⟨⟨rfl, rfl⟩, by simp⟩
      exact hnone _ s' t hafter (closeWrite_stranded hi hpc hstep hafter hb)
    exact ⟨fun t ht => hno t (.inl ht), fun hp t ht => hno t (.inr ⟨hp, ht⟩)⟩
  · rintro ⟨hreset, hempty⟩ zs s' t hr ⟨hb, _⟩
    have hend := hr.invariant (Strandless · a)
      (closeWrite_strandless hi.queue hpc hstep hreset hempty) fun _ _ _ hs hok hst => hs.step hok.2 hst
    exact (hend.released t).not_blocked hb

/-- Task 1 waits on event 0 up to its step `n`, and task 0 closes the event up to its write
section. -/
def closeUnder (n : ℕ) : List Action :=
  opens 0 rootCred 1 ++ [.call 1 rootCred (.doeventwait 0)] ++ runs 1 n ++
    [.call 0 rootCred (.doeventclose 0)] ++ runs 0 2

def beforeUnlinkTest (s : State) (x : Action) : Bool :=
  (decide (WaitCalls s x) || match x with
    | .call 0 _ (.doeventclose _) => true
    | _ => false) &&
  match s.pc x.task with
    | .closeWrite .. => false
    | _ => true

theorem beforeUnlink_of_test (s : State) (x : Action) (h : beforeUnlinkTest s x = true) :
    BeforeUnlink 0 s x := by
  simp only [beforeUnlinkTest, Bool.and_eq_true, Bool.or_eq_true, decide_eq_true_eq] at h
  obtain ⟨h, hpc⟩ := h
  constructor
  · refine h.imp_right fun hx => ?_
    split at hx
    · exact ⟨_, _, rfl⟩
    · cases hx
  · rintro b ⟨t, process, rfl, hw⟩
    simp [Action.task, hw] at hpc

theorem close_strands_nobody_iff_asleep :
    ∃ s s₁, Run step (BeforeUnlink 0) boot (closeUnder 7) s ∧ s.blockedOn 1 1 ∧
      step s (.run 0) = some s₁ ∧
      ∀ zs s' t, Run step (AfterUnlink 1) s₁ zs s' → ¬ Stranded s' t 1 := by
  obtain ⟨s, hr, hi, ht⟩ := run_of_idle_test (BeforeUnlink 0) (closeUnder 7) 2 beforeUnlinkTest
    (fun s => decide (s.blockedOn 1 1 ∧ s.pc 0 = .closeWrite 1 true ∧ (s.sched 0).onRq = true))
    (by decide) (boot_idleFrom 2) fun s x _ h => beforeUnlink_of_test s x h
  obtain ⟨hb, hpc, hrq⟩ := of_decide_eq_true ht
  have hstep := step_of_flow hrq hpc (.closeWrite 1 true)
  refine ⟨s, _, hr, hb, hstep, ?_⟩
  refine (close_strands_nobody_iff bootMem bootUser 0 (closeUnder 7) s _ 1 true hr hpc hstep).mpr
    ⟨fun t => ?_, by simp⟩
  match t with
  | 0 => simp [hpc]
  | 1 => simp [hb.1]
  | t + 2 => simp [hi (t + 2) (Nat.le_add_left 2 t)]

/-- A waiter that looked the event up before the close is stranded after it. -/
theorem close_strands_waiter :
    ¬ ∀ mem user c xs s s₁ a process, Run step (BeforeUnlink c) (doeventInit mem user) xs s →
      s.pc c = .closeWrite a process → step s (.run c) = some s₁ →
      ∀ zs s' t, Run step (AfterUnlink a) s₁ zs s' → ¬ Stranded s' t a := by
  intro hclaim
  have hrun : ∃ s, Run step (BeforeUnlink 0) boot (closeUnder 1) s ∧
      (decide (s.pc 0 = .closeWrite 1 false) && (step s (.run 0)).any fun s₁ =>
        (steps step (fun s x => decide (WaitCalls s x ∧ x = .run 1)) s₁ (runs 1 6)).map
          (fun s' => decide (s'.blockedOn 1 1)) == some true) = true :=
    Run.of_test beforeUnlinkTest _ (by decide) beforeUnlink_of_test
  obtain ⟨s, hr, ht⟩ := hrun
  rw [Bool.and_eq_true, Option.any_eq_true] at ht
  obtain ⟨hpc, s₁, hstep, ht⟩ := ht
  have hpc := of_decide_eq_true hpc
  have hafter : ∀ s x, decide (WaitCalls s x ∧ x = .run 1) = true → AfterUnlink 1 s x := by
    intro s x h
    obtain ⟨hw, rfl⟩ := of_decide_eq_true h
    exact ⟨hw, by simp⟩
  obtain ⟨s', hr', hb⟩ := Run.of_test _ _ (beq_iff_eq.mp ht) hafter
  exact hclaim bootMem bootUser 0 _ s s₁ 1 false hr hpc hstep _ s' 1 hr'
    (closeWrite_stranded (calm_run hr) hpc hstep hr' (of_decide_eq_true hb))

end DoEvent
