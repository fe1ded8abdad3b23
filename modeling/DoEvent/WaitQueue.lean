import Mathlib.Data.List.Nodup
import Mathlib.Logic.Function.Basic
import DoEvent.Event

/-!
# Task states, wake-ups and the scheduler (kernel/wait.c, kernel/sched.c)

What a waiting task and its wakers exchange: `task_struct.state`, `se.on_rq`, the pending
signal flag, and whether the stack entry `__wait` of `wait_event_interruptible` is linked
into some queue (`!list_empty(&__wait.task_list)`). A task is off the run queue exactly
while it is blocked inside `schedule()`.
-/

namespace DoEvent

/-- `TASK_RUNNING` and `TASK_INTERRUPTIBLE`. -/
inductive RunState where
  | running
  | interruptible
  deriving DecidableEq, Repr

structure Sched where
  state : RunState
  onRq : Bool
  sigPending : Bool
  linked : Bool
  deriving DecidableEq, Repr

def Sched.fresh : Sched := ⟨.running, true, false, false⟩

/-- `try_to_wake_up`: success only for a task that is off the run queue. -/
def tryToWakeUp (p : Sched) : Sched × Bool :=
  match p.state, p.onRq with
  | .running, _ => (p, false)
  | .interruptible, true => ({ p with state := .running }, false)
  | .interruptible, false => ({ p with state := .running, onRq := true }, true)

/-- `autoremove_wake_function`: the entry leaves its queue when the wake-up succeeded. -/
def autoremoveWakeFunction (p : Sched) : Sched × Bool :=
  let r := tryToWakeUp p
  (if r.2 then { r.1 with linked := false } else r.1, r.2)

/-- `__wake_up_common` over a queue of non-exclusive entries; the result is what is left
on the queue and the new task states. -/
def wakeUpCommon : List Task → (Task → Sched) → List Task × (Task → Sched)
  | [], sched => ([], sched)
  | t :: q, sched =>
    let r := autoremoveWakeFunction (sched t)
    let rest := wakeUpCommon q (Function.update sched t r.1)
    (if r.2 then rest.1 else t :: rest.1, rest.2)

/-- `signal_wake_up`: the pending flag is set and an interruptible sleep ends. The entry
is not taken off its queue here. -/
def signalWakeUp (p : Sched) : Sched := (tryToWakeUp { p with sigPending := true }).1

def schedule (p : Sched) : Sched :=
  match p.state with
  | .running => p
  | .interruptible =>
    -- `signal_pending_state` keeps a signalled task on the run queue.
    if p.sigPending then { p with state := .running } else { p with onRq := false }

def wake (p : Sched) : Sched := (autoremoveWakeFunction p).1

theorem wake_running (p : Sched) (h : p.state = .running) : wake p = p := by
  simp [wake, autoremoveWakeFunction, tryToWakeUp, h]

theorem wake_onRq (p : Sched) (h : p.state = .interruptible) (hr : p.onRq = true) :
    wake p = { p with state := .running } := by
  simp [wake, autoremoveWakeFunction, tryToWakeUp, h, hr]

theorem wake_asleep (p : Sched) (h : p.state = .interruptible) (hr : p.onRq = false) :
    wake p = { p with state := .running, onRq := true, linked := false } := by
  simp [wake, autoremoveWakeFunction, tryToWakeUp, h, hr]

theorem wake_cases (p : Sched) :
    (p.state = .running ∧ wake p = p) ∨
    (p.state = .interruptible ∧ p.onRq = true ∧ wake p = { p with state := .running }) ∨
    (p.state = .interruptible ∧ p.onRq = false ∧
      wake p = { p with state := .running, onRq := true, linked := false }) := by
  cases hs : p.state with
  | running => exact .inl ⟨rfl, wake_running p hs⟩
  | interruptible =>
    by_cases hr : p.onRq = true
    · exact .inr (.inl ⟨rfl, hr, wake_onRq p hs hr⟩)
    · have hf : p.onRq = false := by simpa using hr
      exact .inr (.inr ⟨rfl, hf, wake_asleep p hs hf⟩)

@[simp] theorem wake_state (p : Sched) : (wake p).state = .running := by
  rcases wake_cases p with ⟨hs, h⟩ | ⟨_, _, h⟩ | ⟨_, _, h⟩ <;> simp [h]
  exact hs

@[simp] theorem wake_sigPending (p : Sched) : (wake p).sigPending = p.sigPending := by
  rcases wake_cases p with ⟨_, h⟩ | ⟨_, _, h⟩ | ⟨_, _, h⟩ <;> simp [h]

theorem onRq_wake {p : Sched} (h : p.onRq = true) : (wake p).onRq = true := by
  rcases wake_cases p with ⟨_, hw⟩ | ⟨_, _, hw⟩ | ⟨_, _, hw⟩ <;> simp [hw, h]

theorem wake_wake (p : Sched) : wake (wake p) = wake p := wake_running _ (wake_state p)

theorem signalWakeUp_cases (p : Sched) :
    (p.state = .running ∧ signalWakeUp p = { p with sigPending := true }) ∨
    (p.state = .interruptible ∧ p.onRq = true ∧
      signalWakeUp p = { p with sigPending := true, state := .running }) ∨
    (p.state = .interruptible ∧ p.onRq = false ∧
      signalWakeUp p = { p with sigPending := true, state := .running, onRq := true }) := by
  cases hs : p.state with
  | running => exact .inl ⟨rfl, by simp [signalWakeUp, tryToWakeUp, hs]⟩
  | interruptible =>
    cases hr : p.onRq with
    | true => exact .inr (.inl ⟨rfl, rfl, by simp [signalWakeUp, tryToWakeUp, hs, hr]⟩)
    | false => exact .inr (.inr ⟨rfl, rfl, by simp [signalWakeUp, tryToWakeUp, hs, hr]⟩)

theorem onRq_signalWakeUp {p : Sched} (h : p.onRq = true) : (signalWakeUp p).onRq = true := by
  rcases signalWakeUp_cases p with ⟨_, hs⟩ | ⟨_, _, hs⟩ | ⟨_, _, hs⟩ <;> simp [hs, h]

/-! ### The wake-up loop

Waking a task twice is waking it once, so the loop's effect on the task states is
pointwise, whatever the order of the entries. -/

theorem wakeUpCommon_sched (q : List Task) (sched : Task → Sched) (t : Task) :
    (wakeUpCommon q sched).2 t = if t ∈ q then wake (sched t) else sched t := by
  induction q generalizing sched with
  | nil => rfl
  | cons u q ih =>
    simp only [wakeUpCommon, ih, List.mem_cons]
    by_cases hu : t = u
    · subst hu
      rw [Function.update_self]
      change (if t ∈ q then wake (wake (sched t)) else wake (sched t)) = _
      simp [wake_wake]
    · simp [hu]

theorem wakeUpCommon_sublist (q : List Task) (sched : Task → Sched) :
    (wakeUpCommon q sched).1.Sublist q := by
  induction q generalizing sched with
  | nil => exact List.Sublist.refl _
  | cons u q ih =>
    simp only [wakeUpCommon]
    split
    · exact (ih _).cons u
    · exact (ih _).cons_cons u

/-- A task stays on the queue exactly when it was not off the run queue. -/
theorem mem_wakeUpCommon {q : List Task} (hq : q.Nodup) (sched : Task → Sched) (t : Task) :
    t ∈ (wakeUpCommon q sched).1 ↔ t ∈ q ∧ (tryToWakeUp (sched t)).2 = false := by
  induction q generalizing sched with
  | nil => simp [wakeUpCommon]
  | cons u q ih =>
    obtain ⟨hu, hq⟩ := List.nodup_cons.mp hq
    have hrest : t ∈ q → Function.update sched u (autoremoveWakeFunction (sched u)).1 t = sched t :=
      fun ht => Function.update_of_ne (fun h : t = u => hu (h ▸ ht)) _ _
    have hqueue : t ∈ (wakeUpCommon (u :: q) sched).1 ↔
        ((tryToWakeUp (sched u)).2 = false ∧ t = u) ∨
          t ∈ (wakeUpCommon q (Function.update sched u (autoremoveWakeFunction (sched u)).1)).1 := by
      simp only [wakeUpCommon]
      cases hw : (tryToWakeUp (sched u)).2 <;> simp [autoremoveWakeFunction, hw]
    rw [hqueue, ih hq, List.mem_cons]
    constructor
    · rintro (⟨hw, rfl⟩ | ⟨ht, hw⟩)
      · exact ⟨.inl rfl, hw⟩
      · exact ⟨.inr ht, by rwa [hrest ht] at hw⟩
    · rintro ⟨rfl | ht, hw⟩
      · exact .inl ⟨hw, rfl⟩
      · exact .inr ⟨ht, by rwa [hrest ht]⟩

/-- The entries left on the queue depend on the tasks of the queue only. -/
theorem wakeUpCommon_congr {q : List Task} {sched sched' : Task → Sched}
    (h : ∀ u ∈ q, sched' u = sched u) : (wakeUpCommon q sched').1 = (wakeUpCommon q sched).1 := by
  induction q generalizing sched sched' with
  | nil => rfl
  | cons t q ih =>
    have ht := h t (List.mem_cons_self ..)
    have hrest := @ih (Function.update sched t (autoremoveWakeFunction (sched t)).1)
      (Function.update sched' t (autoremoveWakeFunction (sched t)).1) fun u hu => by
        simp only [Function.update_apply]
        split
        · rfl
        · exact h u (List.mem_cons_of_mem _ hu)
    simp only [wakeUpCommon, ht, hrest]

end DoEvent
