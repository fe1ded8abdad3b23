import DoEvent.Machine
import DoEvent.Transition.Run

/-!
# What one step can do

Every step is the effect of its task on the shared state followed by the task's move to
its next program counter (`Move`). `Move.origin` says once which program counter each
effect comes from; the remaining lemmas say which part of the state each effect leaves
alone. The invariants are derived from these and never unfold `step`.
-/

namespace DoEvent

open Transition

/-! ### Fields after an update -/

section
variable (s : State) (t u : Task) (p : Pc) (q : Sched) (a b : Addr) (f : Event → Event)

@[simp] theorem goto_mem : (s.goto t p).mem = s.mem := rfl
@[simp] theorem goto_inUse : (s.goto t p).inUse = s.inUse := rfl
@[simp] theorem goto_eventlist : (s.goto t p).eventlist = s.eventlist := rfl
@[simp] theorem goto_sched : (s.goto t p).sched = s.sched := rfl
@[simp] theorem goto_user : (s.goto t p).user = s.user := rfl
@[simp] theorem goto_pc : (s.goto t p).pc = Function.update s.pc t p := rfl

@[simp] theorem modify_mem : (s.modify a f).mem = Function.update s.mem a (f (s.mem a)) := rfl
@[simp] theorem modify_inUse : (s.modify a f).inUse = s.inUse := rfl
@[simp] theorem modify_eventlist : (s.modify a f).eventlist = s.eventlist := rfl
@[simp] theorem modify_sched : (s.modify a f).sched = s.sched := rfl
@[simp] theorem modify_user : (s.modify a f).user = s.user := rfl
@[simp] theorem modify_pc : (s.modify a f).pc = s.pc := rfl

@[simp] theorem setSched_mem : (s.setSched t q).mem = s.mem := rfl
@[simp] theorem setSched_inUse : (s.setSched t q).inUse = s.inUse := rfl
@[simp] theorem setSched_eventlist : (s.setSched t q).eventlist = s.eventlist := rfl
@[simp] theorem setSched_sched : (s.setSched t q).sched = Function.update s.sched t q := rfl
@[simp] theorem setSched_user : (s.setSched t q).user = s.user := rfl
@[simp] theorem setSched_pc : (s.setSched t q).pc = s.pc := rfl

theorem goto_self : s.goto t (s.pc t) = s := by
  simp only [State.goto, Function.update_eq_self]

@[simp] theorem goto_goto (q : Pc) : (s.goto t p).goto t q = s.goto t q := by
  simp only [State.goto, Function.update_idem]

end

/-! ### Moves -/

/-- The effect and the next program counter that an action gives its task. -/
inductive Move (s : State) : Action → Effect → Pc → Prop where
  | call (t : Task) (c : Cred) (k : Call) (hpc : s.pc t = .user) :
      Move s (.call t c k) .skip (entry c k)
  | nomem (t : Task) (c : Cred) (hpc : s.pc t = .openAlloc c) :
      Move s (.kmalloc t none) .skip (.ret (-1))
  | kmalloc (t : Task) (c : Cred) (a : Addr) (hpc : s.pc t = .openAlloc c)
      (hfree : s.inUse a = false) : Move s (.kmalloc t (some a)) (.kmalloc a) (.openWrite c a)
  | run (t : Task) (e : Effect) (p : Pc) (hrq : (s.sched t).onRq = true)
      (hnext : next s t (s.pc t) = some (e, p)) : Move s (.run t) e p
  | posix (t : Task) : Move s (.posix t) .posix (s.pc t)
  | deliver (t : Task) (hpc : s.pc t = .user) : Move s (.deliver t) .deliver (s.pc t)

theorem step_eq_some {s s' : State} {x : Action} :
    step s x = some s' ↔ ∃ e p, Move s x e p ∧ s' = (apply s x.task e).goto x.task p := by
  constructor
  · intro h
    cases x with
    | call t c k =>
      simp only [step] at h
      split_ifs at h with hpc
      exact ⟨.skip, entry c k, .call t c k hpc, (Option.some.inj h).symm⟩
    | kmalloc t r =>
      simp only [step, kmallocStep] at h
      split at h
      next c hpc =>
        cases r with
        | none => exact ⟨.skip, .ret (-1), .nomem t c hpc, (Option.some.inj h).symm⟩
        | some a =>
          dsimp only at h
          split_ifs at h with hfree
          have hf : s.inUse a = false := by simpa using hfree
          exact ⟨.kmalloc a, .openWrite c a, .kmalloc t c a hpc hf, (Option.some.inj h).symm⟩
      next => cases h
    | run t =>
      simp only [step] at h
      split_ifs at h with hrq
      obtain ⟨⟨e, p⟩, hnext, he⟩ := Option.map_eq_some_iff.mp h
      exact ⟨e, p, .run t e p hrq hnext, he.symm⟩
    | posix t =>
      refine ⟨.posix, s.pc t, .posix t, ?_⟩
      rw [← Option.some.inj h]
      exact (goto_self (apply s t .posix) t).symm
    | deliver t =>
      simp only [step] at h
      split_ifs at h with hpc
      refine ⟨.deliver, s.pc t, .deliver t hpc, ?_⟩
      rw [← Option.some.inj h]
      exact (goto_self (apply s t .deliver) t).symm
  · rintro ⟨e, p, hm, rfl⟩
    cases hm with
    | call t c k hpc => simp [step, hpc, apply, Action.task]
    | nomem t c hpc => simp [step, kmallocStep, hpc, apply, Action.task]
    | kmalloc t c a hpc hfree => simp [step, kmallocStep, hpc, hfree, Action.task]
    | run t e p hrq hnext => simp [step, hrq, hnext, Action.task]
    | posix t => exact congrArg some (goto_self (apply s t .posix) t).symm
    | deliver t hpc =>
      simp only [step, hpc, if_true]
      refine congrArg some ?_
      have hself := goto_self (apply s t .deliver) t
      rw [show (apply s t .deliver).pc t = .user from hpc] at hself
      exact hself.symm

/-- The moves of a task on the run queue, one constructor for each outcome of a step. -/
inductive Flow (s : State) (t : Task) : Pc → Effect → Pc → Prop where
  | ret (r : Int) : Flow s t (.ret r) .skip .user
  | openWrite (c : Cred) (e : Addr) : Flow s t (.openWrite c e) (.openSection c e) (.openRet e)
  | openRet (e : Addr) : Flow s t (.openRet e) .skip (.ret (s.mem e).id.toInt)
  | closeMiss (c : Cred) (i : Int32) (h : readSection s.mem s.eventlist c i = none) :
      Flow s t (.closeRead c i) .skip (.ret (-1))
  | closeFound (c : Cred) (i : Int32) (e : Addr) (h : readSection s.mem s.eventlist c i = some e) :
      Flow s t (.closeRead c i) .skip (.closeActive e)
  | closeActive (e : Addr) :
      Flow s t (.closeActive e) .skip (.closeWrite e (waitqueueActive (s.mem e)))
  | closeWrite (e : Addr) (process : Bool) :
      Flow s t (.closeWrite e process) (.closeSection e process)
        (.closeKfree e (if process then countTasks (s.mem e).queue 0 else 0))
  | closeKfree (e : Addr) (process : ℕ) : Flow s t (.closeKfree e process) (.kfree e) (.ret process)
  | waitMiss (c : Cred) (i : Int32) (h : readSection s.mem s.eventlist c i = none) :
      Flow s t (.waitRead c i) .skip (.ret (-1))
  | waitFound (c : Cred) (i : Int32) (e : Addr) (h : readSection s.mem s.eventlist c i = some e) :
      Flow s t (.waitRead c i) .skip (.waitReset e)
  | waitReset (e : Addr) : Flow s t (.waitReset e) (.setCondition e 0) (.waitTest e)
  | waitPast (e : Addr) (h : (s.mem e).condition ≠ 0) : Flow s t (.waitTest e) .skip (.ret 1)
  | waitEnter (e : Addr) (h : (s.mem e).condition = 0) :
      Flow s t (.waitTest e) .skip (.waitPrepare e)
  | waitPrepare (e : Addr) : Flow s t (.waitPrepare e) (.prepareToWait e) (.waitRetest e)
  | waitLeave (e : Addr) (h : (s.mem e).condition ≠ 0) :
      Flow s t (.waitRetest e) .skip (.waitFinish e)
  | waitCommit (e : Addr) (h : (s.mem e).condition = 0) :
      Flow s t (.waitRetest e) .skip (.waitSignal e)
  | waitSignalled (e : Addr) (h : (s.sched t).sigPending = true) :
      Flow s t (.waitSignal e) .skip (.waitFinish e)
  | waitUnsignalled (e : Addr) (h : (s.sched t).sigPending = false) :
      Flow s t (.waitSignal e) .skip (.waitSchedule e)
  | waitSchedule (e : Addr) : Flow s t (.waitSchedule e) .schedule (.waitAsleep e)
  | waitAwake (e : Addr) : Flow s t (.waitAsleep e) .skip (.waitPrepare e)
  | waitFinish (e : Addr) : Flow s t (.waitFinish e) (.finishWait e) (.ret 1)
  | sigMiss (c : Cred) (i : Int32) (h : readSection s.mem s.eventlist c i = none) :
      Flow s t (.sigRead c i) .skip (.ret (-1))
  | sigFound (c : Cred) (i : Int32) (e : Addr) (h : readSection s.mem s.eventlist c i = some e) :
      Flow s t (.sigRead c i) .skip (.sigActive e)
  | sigIdle (e : Addr) (h : waitqueueActive (s.mem e) = false) :
      Flow s t (.sigActive e) .skip (.ret 0)
  | sigActive (e : Addr) (h : waitqueueActive (s.mem e) = true) :
      Flow s t (.sigActive e) .skip (.sigWrite e)
  | sigWrite (e : Addr) :
      Flow s t (.sigWrite e) (.setCondition e 1) (.sigWake e (countTasks (s.mem e).queue 0))
  | sigWake (e : Addr) (process : ℕ) : Flow s t (.sigWake e process) (.wakeUpAll e) (.ret process)
  | infoFault (num : Int32) (q : Option ℕ) (h : infoProbeFails (s.user t) q = true) :
      Flow s t (.infoProbe num q) .skip (.ret (-1))
  | infoProbe (num : Int32) (q : Option ℕ) (h : infoProbeFails (s.user t) q = false) :
      Flow s t (.infoProbe num q) .skip (.infoRead num q)
  | infoRead (num : Int32) (q : Option ℕ) :
      Flow s t (.infoRead num q) .skip
        (.infoCopy num q (infoLoop s.mem num q.isSome s.eventlist (infoArray num) 0).1
          (infoLoop s.mem num q.isSome s.eventlist (infoArray num) 0).2)
  | infoCopy (num : Int32) (q : Option ℕ) (l : List Int32) (check : Int32) :
      Flow s t (.infoCopy num q l check) (.copyOut (infoFinish (s.user t) num q l check).1)
        (.ret (infoFinish (s.user t) num q l check).2)
  | chownMiss (c : Cred) (i : Int32) (UID GID : UInt32) (junk : Option Addr)
      (h : readSectionUser s.mem s.eventlist c i junk = none) :
      Flow s t (.chownRead c i UID GID junk) .skip (.ret (-1))
  | chownFound (c : Cred) (i : Int32) (UID GID : UInt32) (junk : Option Addr) (e : Addr)
      (h : readSectionUser s.mem s.eventlist c i junk = some e) :
      Flow s t (.chownRead c i UID GID junk) .skip (.chownWrite c e UID GID)
  | chownWrite (c : Cred) (e : Addr) (UID GID : UInt32) :
      Flow s t (.chownWrite c e UID GID) (.setOwner e UID GID) (.ret 0)
  | chmodMiss (c : Cred) (i UIDFlag GIDFlag : Int32) (junk : Option Addr)
      (h : readSectionUser s.mem s.eventlist c i junk = none) :
      Flow s t (.chmodRead c i UIDFlag GIDFlag junk) .skip (.ret (-1))
  | chmodFound (c : Cred) (i UIDFlag GIDFlag : Int32) (junk : Option Addr) (e : Addr)
      (h : readSectionUser s.mem s.eventlist c i junk = some e) :
      Flow s t (.chmodRead c i UIDFlag GIDFlag junk) .skip (.chmodWrite c e UIDFlag GIDFlag)
  | chmodWrite (c : Cred) (e : Addr) (UIDFlag GIDFlag : Int32) :
      Flow s t (.chmodWrite c e UIDFlag GIDFlag) (.setFlags e UIDFlag GIDFlag) (.ret 0)
  | statFault (i : Int32) (q : StatPtrs) (junk : Option Addr)
      (h : statProbe (s.user t) q = none ∨ isValidEventId i = true) :
      Flow s t (.statProbe i q junk) .skip (.ret (-1))
  | statProbe (i : Int32) (q : StatPtrs) (junk : Option Addr) (v : StatVals)
      (h : statProbe (s.user t) q = some v) (hi : isValidEventId i = false) :
      Flow s t (.statProbe i q junk) .skip (.statRead i q v junk)
  | statMiss (i : Int32) (q : StatPtrs) (v : StatVals) (junk : Option Addr)
      (h : (statLoop s.mem i junk v s.eventlist).1 = none) :
      Flow s t (.statRead i q v junk) .skip (.ret (-1))
  | statFound (i : Int32) (q : StatPtrs) (v : StatVals) (junk : Option Addr) (e : Addr)
      (h : (statLoop s.mem i junk v s.eventlist).1 = some e) :
      Flow s t (.statRead i q v junk) .skip (.statCopy q (statLoop s.mem i junk v s.eventlist).2)
  | statCopy (q : StatPtrs) (v : StatVals) :
      Flow s t (.statCopy q v) (.copyOut (statFinish (s.user t) q v).1)
        (.ret (statFinish (s.user t) q v).2)

theorem Flow.of_next {s : State} {t : Task} {q p : Pc} {e : Effect}
    (h : next s t q = some (e, p)) : Flow s t q e p := by
  cases q with
  | user | openAlloc c => cases h
  | ret r => cases h; exact .ret r
  | openWrite c a => cases h; exact .openWrite c a
  | openRet a => cases h; exact .openRet a
  | closeRead c i =>
    cases h
    cases hr : readSection s.mem s.eventlist c i with
    | none => exact .closeMiss c i hr
    | some a => exact .closeFound c i a hr
  | closeActive a => cases h; exact .closeActive a
  | closeWrite a process => cases h; exact .closeWrite a process
  | closeKfree a n => cases h; exact .closeKfree a n
  | waitRead c i =>
    cases h
    cases hr : readSection s.mem s.eventlist c i with
    | none => exact .waitMiss c i hr
    | some a => exact .waitFound c i a hr
  | waitReset a => cases h; exact .waitReset a
  | waitTest a =>
    cases h
    split
    next hc => exact .waitPast a hc
    next hc => exact .waitEnter a (not_not.mp hc)
  | waitPrepare a => cases h; exact .waitPrepare a
  | waitRetest a =>
    cases h
    split
    next hc => exact .waitLeave a hc
    next hc => exact .waitCommit a (not_not.mp hc)
  | waitSignal a =>
    cases h
    split
    next hc => exact .waitSignalled a hc
    next hc => exact .waitUnsignalled a (by simpa using hc)
  | waitSchedule a => cases h; exact .waitSchedule a
  | waitAsleep a => cases h; exact .waitAwake a
  | waitFinish a => cases h; exact .waitFinish a
  | sigRead c i =>
    cases h
    cases hr : readSection s.mem s.eventlist c i with
    | none => exact .sigMiss c i hr
    | some a => exact .sigFound c i a hr
  | sigActive a =>
    cases h
    split
    next hc => exact .sigActive a hc
    next hc => exact .sigIdle a (by simpa using hc)
  | sigWrite a => cases h; exact .sigWrite a
  | sigWake a n => cases h; exact .sigWake a n
  | infoProbe num q =>
    cases h
    split
    next hc => exact .infoFault num q hc
    next hc => exact .infoProbe num q (by simpa using hc)
  | infoRead num q => cases h; exact .infoRead num q
  | infoCopy num q l check => cases h; exact .infoCopy num q l check
  | chownRead c i UID GID junk =>
    cases h
    cases hr : readSectionUser s.mem s.eventlist c i junk with
    | none => exact .chownMiss c i UID GID junk hr
    | some a => exact .chownFound c i UID GID junk a hr
  | chownWrite c a UID GID => cases h; exact .chownWrite c a UID GID
  | chmodRead c i UIDFlag GIDFlag junk =>
    cases h
    cases hr : readSectionUser s.mem s.eventlist c i junk with
    | none => exact .chmodMiss c i UIDFlag GIDFlag junk hr
    | some a => exact .chmodFound c i UIDFlag GIDFlag junk a hr
  | chmodWrite c a UIDFlag GIDFlag => cases h; exact .chmodWrite c a UIDFlag GIDFlag
  | statProbe i q junk =>
    cases h
    cases hv : DoEvent.statProbe (s.user t) q with
    | none => exact .statFault i q junk (.inl hv)
    | some v =>
      dsimp only
      split
      next hi => exact .statFault i q junk (.inr hi)
      next hi => exact .statProbe i q junk v hv (by simpa using hi)
  | statRead i q v junk =>
    cases h
    cases hr : (statLoop s.mem i junk v s.eventlist).1 with
    | none => exact .statMiss i q v junk hr
    | some a => exact .statFound i q v junk a hr
  | statCopy q v => cases h; exact .statCopy q v

theorem Flow.next {s : State} {t : Task} {q p : Pc} {e : Effect} (h : Flow s t q e p) :
    next s t q = some (e, p) := by
  cases h with
  | statFault i q junk h =>
    rcases h with h | h
    · simp [DoEvent.next, h]
    · cases hv : DoEvent.statProbe (s.user t) q <;> simp [DoEvent.next, hv, h]
  | _ => simp [DoEvent.next, orFail, *]

theorem step_of_flow {s : State} {t : Task} {q p : Pc} {e : Effect} (hrq : (s.sched t).onRq = true)
    (hpc : s.pc t = q) (hf : Flow s t q e p) : step s (.run t) = some ((apply s t e).goto t p) := by
  simp [step, hrq, hpc, hf.next]

/-- Which program counter of task `t` each effect comes from, and where `t` goes. -/
def Origin (s : State) (t : Task) (p : Pc) : Effect → Prop
  | .kmalloc a => ∃ c, s.pc t = .openAlloc c ∧ s.inUse a = false ∧ p = .openWrite c a
  | .kfree a => ∃ n : ℕ, s.pc t = .closeKfree a n ∧ p = .ret n
  | .openSection c a => s.pc t = .openWrite c a ∧ p = .openRet a
  | .closeSection a process => s.pc t = .closeWrite a process ∧
      p = .closeKfree a (if process then countTasks (s.mem a).queue 0 else 0)
  | .setCondition a v =>
      (v = 0 ∧ s.pc t = .waitReset a ∧ p = .waitTest a) ∨
      (v = 1 ∧ s.pc t = .sigWrite a ∧ p = .sigWake a (countTasks (s.mem a).queue 0))
  | .prepareToWait a => s.pc t = .waitPrepare a ∧ p = .waitRetest a
  | .schedule => ∃ a, s.pc t = .waitSchedule a ∧ p = .waitAsleep a
  | .finishWait a => s.pc t = .waitFinish a ∧ p = .ret 1
  | .wakeUpAll a => ∃ n : ℕ, s.pc t = .sigWake a n ∧ p = .ret n
  | .setOwner a UID GID => ∃ c, s.pc t = .chownWrite c a UID GID ∧ p = .ret 0
  | .setFlags a UIDFlag GIDFlag => ∃ c, s.pc t = .chmodWrite c a UIDFlag GIDFlag ∧ p = .ret 0
  | .copyOut _ => ∃ r, p = .ret r
  | .skip => True
  | .posix => p = s.pc t
  | .deliver => p = s.pc t

theorem Move.origin {s : State} {x : Action} {e : Effect} {p : Pc} (h : Move s x e p) :
    Origin s x.task p e := by
  cases h with
  | call t c k hpc => trivial
  | nomem t c hpc => trivial
  | kmalloc t c a hpc hfree => exact ⟨c, hpc, hfree, rfl⟩
  | posix t => rfl
  | deliver t hpc => rfl
  | run t e p hrq hnext =>
    have hf := Flow.of_next hnext
    generalize hpc : s.pc t = q at hf
    cases hf <;> simp [Origin, Action.task, hpc]

/-! ### The wait-queue operations -/

section
variable (s : State) (t u : Task) (a b : Addr)

theorem wakeUpAll_sched :
    (wakeUpAll s a).sched u = if u ∈ (s.mem a).queue then wake (s.sched u) else s.sched u :=
  wakeUpCommon_sched ..

theorem prepareToWait_sched :
    (prepareToWait s t a).sched =
      Function.update s.sched t { s.sched t with linked := true, state := .interruptible } := by
  simp only [prepareToWait]
  split
  next h => simp [h]
  next h => rfl

theorem prepareToWait_mem :
    (prepareToWait s t a).mem = Function.update s.mem a { s.mem a with
      queue := if (s.sched t).linked then (s.mem a).queue else t :: (s.mem a).queue } := by
  simp only [prepareToWait]
  split
  · exact (Function.update_eq_self a s.mem).symm
  · rfl

theorem finishWait_sched :
    (finishWait s t a).sched =
      Function.update s.sched t { s.sched t with linked := false, state := .running } := by
  simp only [finishWait]
  split
  next h => rfl
  next h =>
    have hl : (s.sched t).linked = false := by simpa using h
    simp [hl]

theorem finishWait_mem :
    (finishWait s t a).mem = Function.update s.mem a { s.mem a with
      queue := if (s.sched t).linked then (s.mem a).queue.erase t else (s.mem a).queue } := by
  simp only [finishWait]
  split
  · rfl
  · exact (Function.update_eq_self a s.mem).symm

end

/-! ### Effects on the parts of the state -/

def Effect.wakes : Effect → Option Addr
  | .wakeUpAll a => some a
  | .closeSection a process => if process then some a else none
  | _ => none

section
variable (s : State) (t : Task) (e : Effect)

@[simp] theorem apply_pc : (apply s t e).pc = s.pc := by
  cases e with
  | prepareToWait a => simp only [apply, prepareToWait]; split <;> rfl
  | finishWait a => simp only [apply, finishWait]; split <;> rfl
  | closeSection a process => simp only [apply, closeSection]; split <;> rfl
  | _ => rfl

theorem apply_goto (u : Task) (p : Pc) : apply (s.goto u p) t e = (apply s t e).goto u p := by
  cases e with
  | prepareToWait a => simp only [apply, prepareToWait]; split <;> simp_all <;> rfl
  | finishWait a => simp only [apply, finishWait]; split <;> simp_all <;> rfl
  | closeSection a process => cases process <;> rfl
  | _ => rfl

theorem apply_eventlist :
    (apply s t e).eventlist = match e with
      | .openSection _ a => s.eventlist ++ [a]
      | .closeSection a _ => s.eventlist.erase a
      | _ => s.eventlist := by
  cases e with
  | prepareToWait a => simp only [apply, prepareToWait]; split <;> rfl
  | finishWait a => simp only [apply, finishWait]; split <;> rfl
  | closeSection a process => simp only [apply, closeSection]; split <;> rfl
  | _ => rfl

theorem apply_inUse :
    (apply s t e).inUse = match e with
      | .kmalloc a => Function.update s.inUse a true
      | .kfree a => Function.update s.inUse a false
      | _ => s.inUse := by
  cases e with
  | prepareToWait a => simp only [apply, prepareToWait]; split <;> rfl
  | finishWait a => simp only [apply, finishWait]; split <;> rfl
  | closeSection a process => simp only [apply, closeSection]; split <;> rfl
  | _ => rfl

theorem apply_user :
    (apply s t e).user = match e with
      | .copyOut m => Function.update s.user t m
      | _ => s.user := by
  cases e with
  | prepareToWait a => simp only [apply, prepareToWait]; split <;> rfl
  | finishWait a => simp only [apply, finishWait]; split <;> rfl
  | closeSection a process => simp only [apply, closeSection]; split <;> rfl
  | _ => rfl

def Effect.target : Effect → Option Addr
  | .openSection _ a | .closeSection a _ | .setCondition a _ | .prepareToWait a | .finishWait a
  | .wakeUpAll a | .setOwner a _ _ | .setFlags a _ _ => some a
  | _ => none

theorem apply_mem_of_target {b : Addr} (h : e.target ≠ some b) :
    (apply s t e).mem b = s.mem b := by
  have hne : ∀ a, e.target = some a → b ≠ a := fun a ha hb => h (hb ▸ ha)
  cases e with
  | prepareToWait a =>
    rw [apply, prepareToWait_mem, Function.update_of_ne (hne a rfl)]
  | finishWait a =>
    rw [apply, finishWait_mem, Function.update_of_ne (hne a rfl)]
  | closeSection a process =>
    cases process with
    | false => rfl
    | true =>
      simp only [apply, closeSection, wakeUpAll, if_true, modify_mem, Function.update_of_ne (hne a rfl)]
  | openSection c a => simp only [apply, openSection, Function.update_of_ne (hne a rfl)]
  | wakeUpAll a => simp only [apply, wakeUpAll, modify_mem, Function.update_of_ne (hne a rfl)]
  | setCondition a v => simp only [apply, modify_mem, Function.update_of_ne (hne a rfl)]
  | setOwner a U G => simp only [apply, modify_mem, Function.update_of_ne (hne a rfl)]
  | setFlags a u g => simp only [apply, modify_mem, Function.update_of_ne (hne a rfl)]
  | _ => rfl

/-- What becomes of the target's record. -/
def Effect.onTarget (s : State) (t : Task) : Effect → Event → Event
  | .openSection c _ => fun _ => ⟨(s.mem (lastEvent s)).id + 1, c.euid, c.egid, 1, 1, 0, []⟩
  | .closeSection _ process => fun v =>
    if process then { v with condition := 1, queue := (wakeUpCommon v.queue s.sched).1 } else v
  | .setCondition _ x => fun v => { v with condition := x }
  | .prepareToWait _ => fun v => if (s.sched t).linked then v else { v with queue := t :: v.queue }
  | .finishWait _ => fun v => if (s.sched t).linked then { v with queue := v.queue.erase t } else v
  | .wakeUpAll _ => fun v => { v with queue := (wakeUpCommon v.queue s.sched).1 }
  | .setOwner _ UID GID => fun v => { v with uid := UID, gid := GID }
  | .setFlags _ UIDFlag GIDFlag => fun v => { v with uidFlag := UIDFlag, gidFlag := GIDFlag }
  | _ => id

theorem apply_mem_target {b : Addr} (h : e.target = some b) :
    (apply s t e).mem b = e.onTarget s t (s.mem b) := by
  cases e with
  | prepareToWait a | finishWait a =>
    cases h
    simp only [apply, prepareToWait_mem, finishWait_mem, Function.update_self, Effect.onTarget]
    split <;> rfl
  | closeSection a process =>
    cases h
    cases process with
    | false => rfl
    | true =>
      simp only [apply, closeSection, wakeUpAll, if_true, modify_mem, Function.update_self,
        Effect.onTarget]
      rfl
  | openSection c a =>
    cases h
    exact Function.update_self ..
  | wakeUpAll a | setCondition a v | setOwner a U G | setFlags a u g =>
    cases h
    exact Function.update_self ..
  | _ => cases h

/-- Only open writes an id, and only into its own record. -/
theorem apply_id (b : Addr) :
    ((apply s t e).mem b).id = match e with
      | .openSection _ a => if b = a then (s.mem (lastEvent s)).id + 1 else (s.mem b).id
      | _ => (s.mem b).id := by
  by_cases h : e.target = some b
  · rw [apply_mem_target s t e h]
    cases e with
    | openSection c a =>
      cases h
      exact (if_pos rfl).symm
    | closeSection | prepareToWait | finishWait =>
      rw [Effect.onTarget]
      split <;> rfl
    | _ => rfl
  · rw [apply_mem_of_target s t e h]
    cases e with
    | openSection c a => exact (if_neg fun hb => h (congrArg some hb.symm)).symm
    | _ => rfl

theorem apply_condition (b : Addr) :
    ((apply s t e).mem b).condition = match e with
      | .openSection _ a => if b = a then 0 else (s.mem b).condition
      | .setCondition a v => if b = a then v else (s.mem b).condition
      | .closeSection a process => if b = a ∧ process = true then 1 else (s.mem b).condition
      | _ => (s.mem b).condition := by
  by_cases h : e.target = some b
  · rw [apply_mem_target s t e h]
    cases e with
    | openSection c a | setCondition a v =>
      cases h
      exact (if_pos rfl).symm
    | closeSection a process =>
      cases h
      cases process <;> simp [Effect.onTarget]
    | prepareToWait | finishWait =>
      rw [Effect.onTarget]
      split <;> rfl
    | _ => rfl
  · rw [apply_mem_of_target s t e h]
    cases e with
    | openSection c a | setCondition a v => exact (if_neg fun hb => h (congrArg some hb.symm)).symm
    | closeSection a process => exact (if_neg fun hb => h (congrArg some hb.1.symm)).symm
    | _ => rfl

def Event.attrs (v : Event) : UInt32 × UInt32 × Int32 × Int32 := (v.uid, v.gid, v.uidFlag, v.gidFlag)

theorem Event.ext_parts {v w : Event} (hid : v.id = w.id) (hattrs : v.attrs = w.attrs)
    (hcond : v.condition = w.condition) (hqueue : v.queue = w.queue) : v = w := by
  obtain ⟨i, u, g, uf, gf, c, q⟩ := v
  obtain ⟨i', u', g', uf', gf', c', q'⟩ := w
  simp_all [Event.attrs]

theorem apply_attrs (b : Addr) :
    ((apply s t e).mem b).attrs = match e with
      | .openSection c a => if b = a then (c.euid, c.egid, 1, 1) else (s.mem b).attrs
      | .setOwner a UID GID =>
        if b = a then (UID, GID, (s.mem a).uidFlag, (s.mem a).gidFlag) else (s.mem b).attrs
      | .setFlags a UIDFlag GIDFlag =>
        if b = a then ((s.mem a).uid, (s.mem a).gid, UIDFlag, GIDFlag) else (s.mem b).attrs
      | _ => (s.mem b).attrs := by
  by_cases h : e.target = some b
  · rw [apply_mem_target s t e h]
    cases e with
    | openSection c a | setOwner a U G | setFlags a u g =>
      cases h
      exact (if_pos rfl).symm
    | closeSection | prepareToWait | finishWait =>
      rw [Effect.onTarget]
      split <;> rfl
    | _ => rfl
  · rw [apply_mem_of_target s t e h]
    cases e with
    | openSection c a | setOwner a U G | setFlags a u g =>
      exact (if_neg fun hb => h (congrArg some hb.symm)).symm
    | _ => rfl

theorem apply_uid (b : Addr) :
    ((apply s t e).mem b).uid = match e with
      | .openSection c a => if b = a then c.euid else (s.mem b).uid
      | .setOwner a UID _ => if b = a then UID else (s.mem b).uid
      | _ => (s.mem b).uid := by
  have h : ((apply s t e).mem b).uid = _ := congrArg Prod.fst (apply_attrs s t e b)
  rw [h]
  cases e <;> dsimp only <;> (try split) <;> simp_all [Event.attrs]

theorem apply_queue (b : Addr) :
    ((apply s t e).mem b).queue = match e with
      | .openSection _ a => if b = a then [] else (s.mem b).queue
      | .prepareToWait a =>
        if b = a ∧ (s.sched t).linked = false then t :: (s.mem b).queue else (s.mem b).queue
      | .finishWait a =>
        if b = a ∧ (s.sched t).linked = true then (s.mem b).queue.erase t else (s.mem b).queue
      | e => if e.wakes = some b then (wakeUpCommon (s.mem b).queue s.sched).1
        else (s.mem b).queue := by
  by_cases h : e.target = some b
  · rw [apply_mem_target s t e h]
    cases e with
    | openSection c a =>
      cases h
      exact (if_pos rfl).symm
    | prepareToWait a | finishWait a =>
      cases h
      cases hl : (s.sched t).linked <;> simp [Effect.onTarget, hl]
    | closeSection a process =>
      cases h
      cases process <;> simp [Effect.onTarget, Effect.wakes]
    | wakeUpAll a =>
      cases h
      exact (if_pos rfl).symm
    | _ => rfl
  · rw [apply_mem_of_target s t e h]
    cases e with
    | openSection c a => exact (if_neg fun hb => h (congrArg some hb.symm)).symm
    | prepareToWait a | finishWait a => exact (if_neg fun hb => h (congrArg some hb.1.symm)).symm
    | wakeUpAll a => exact (if_neg h).symm
    | closeSection a process =>
      cases process with
      | false => rfl
      | true => exact (if_neg h).symm
    | _ => rfl

/-- The run state of another task changes only by a wake-up of the queue it is on. -/
theorem apply_sched_of_ne {u : Task} (hu : u ≠ t) :
    (apply s t e).sched u = match e.wakes with
      | some a => if u ∈ (s.mem a).queue then wake (s.sched u) else s.sched u
      | none => s.sched u := by
  cases e with
  | prepareToWait a => simp [apply, prepareToWait_sched, Effect.wakes, hu]
  | finishWait a => simp [apply, finishWait_sched, Effect.wakes, hu]
  | closeSection a process =>
    cases process with
    | false => rfl
    | true =>
      change (wakeUpAll (s.modify a _) a).sched u = _
      rw [wakeUpAll_sched]
      simp [Effect.wakes]
  | wakeUpAll a => exact wakeUpAll_sched s u a
  | schedule | posix | deliver => simp [apply, Effect.wakes, hu]
  | _ => rfl

theorem apply_sched_self :
    (apply s t e).sched t = match e with
      | .prepareToWait _ => { s.sched t with linked := true, state := .interruptible }
      | .schedule => schedule (s.sched t)
      | .finishWait _ => { s.sched t with linked := false, state := .running }
      | .posix => signalWakeUp (s.sched t)
      | .deliver => { s.sched t with sigPending := false }
      | e => match e.wakes with
        | some a => if t ∈ (s.mem a).queue then wake (s.sched t) else s.sched t
        | none => s.sched t := by
  cases e with
  | prepareToWait a => simp [apply, prepareToWait_sched]
  | finishWait a => simp [apply, finishWait_sched]
  | closeSection a process =>
    cases process with
    | false => rfl
    | true =>
      change (wakeUpAll (s.modify a _) a).sched t = _
      rw [wakeUpAll_sched]
      simp [Effect.wakes]
  | wakeUpAll a => exact wakeUpAll_sched s t a
  | schedule | posix | deliver => simp [apply]
  | _ => rfl

theorem apply_sched_of_wakes {b : Addr} (hw : e.wakes = some b) (u : Task) :
    (apply s t e).sched u = if u ∈ (s.mem b).queue then wake (s.sched u) else s.sched u := by
  by_cases hu : u = t
  · subst hu
    rw [apply_sched_self]
    cases e with
    | closeSection a process => cases process <;> simp_all [Effect.wakes]
    | wakeUpAll a =>
      cases hw
      rfl
    | _ => cases hw
  · rw [apply_sched_of_ne s t e hu, hw]

theorem apply_sigPending (u : Task) :
    ((apply s t e).sched u).sigPending = match e with
      | .posix => if u = t then true else (s.sched u).sigPending
      | .deliver => if u = t then false else (s.sched u).sigPending
      | _ => (s.sched u).sigPending := by
  by_cases hu : u = t
  · subst hu
    rw [apply_sched_self]
    cases e with
    | posix =>
      rcases signalWakeUp_cases (s.sched u) with ⟨_, h⟩ | ⟨_, _, h⟩ | ⟨_, _, h⟩ <;> simp [h]
    | deliver => simp
    | schedule =>
      simp only [schedule]
      split
      · rfl
      · split <;> rfl
    | prepareToWait a | finishWait a => rfl
    | _ =>
      dsimp only
      split
      · split
        · exact wake_sigPending _
        · rfl
      · rfl
  · rw [apply_sched_of_ne s t e hu]
    have hw : (match e.wakes with
        | some a => if u ∈ (s.mem a).queue then wake (s.sched u) else s.sched u
        | none => s.sched u).sigPending = (s.sched u).sigPending := by
      split
      · split
        · exact wake_sigPending _
        · rfl
      · rfl
    rw [hw]
    cases e <;> simp [hu]

theorem apply_sched_of_ne_cases {u : Task} (hu : u ≠ t) :
    (apply s t e).sched u = s.sched u ∨ (apply s t e).sched u = wake (s.sched u) := by
  rw [apply_sched_of_ne s t e hu]
  split
  · split
    · exact .inr rfl
    · exact .inl rfl
  · exact .inl rfl

end

/-! ### Which call a task is in -/

inductive Kind where
  | doeventopen
  | doeventclose
  | doeventwait
  | doeventsig
  | doeventinfo
  | doeventchown
  | doeventchmod
  | doeventstat
  deriving DecidableEq, Repr

def Call.kind : Call → Kind
  | .doeventopen => .doeventopen
  | .doeventclose _ => .doeventclose
  | .doeventwait _ => .doeventwait
  | .doeventsig _ => .doeventsig
  | .doeventinfo .. => .doeventinfo
  | .doeventchown .. => .doeventchown
  | .doeventchmod .. => .doeventchmod
  | .doeventstat .. => .doeventstat

def Pc.kind : Pc → Option Kind
  | .user | .ret _ => none
  | .openAlloc .. | .openWrite .. | .openRet .. => some .doeventopen
  | .closeRead .. | .closeActive .. | .closeWrite .. | .closeKfree .. => some .doeventclose
  | .waitRead .. | .waitReset .. | .waitTest .. | .waitPrepare .. | .waitRetest .. | .waitSignal ..
  | .waitSchedule .. | .waitAsleep .. | .waitFinish .. => some .doeventwait
  | .sigRead .. | .sigActive .. | .sigWrite .. | .sigWake .. => some .doeventsig
  | .infoProbe .. | .infoRead .. | .infoCopy .. => some .doeventinfo
  | .chownRead .. | .chownWrite .. => some .doeventchown
  | .chmodRead .. | .chmodWrite .. => some .doeventchmod
  | .statProbe .. | .statRead .. | .statCopy .. => some .doeventstat

theorem entry_kind (c : Cred) (k : Call) : (entry c k).kind = some k.kind ∨ (entry c k).kind = none := by
  cases k <;> simp only [entry] <;> (try split) <;> simp [Pc.kind, Call.kind]

/-- The action is not a call, or one of the kinds in `P`. -/
def Action.callIn (P : Kind → Bool) : Action → Bool
  | .call _ _ k => P k.kind
  | _ => true

def Action.isPosix : Action → Bool
  | .posix _ => true
  | _ => false

def Action.isRun : Action → Bool
  | .run _ => true
  | _ => false

/-- Every task inside a call is in one of the kinds in `P`. -/
def CallsIn (P : Kind → Bool) (s : State) : Prop := ∀ t k, (s.pc t).kind = some k → P k = true

theorem Move.kind {s : State} {x : Action} {e : Effect} {p : Pc} {k : Kind} (hm : Move s x e p)
    (hp : p.kind = some k) :
    (s.pc x.task).kind = some k ∨ ∃ t c q, x = .call t c q ∧ q.kind = k := by
  cases hm with
  | call t c q hpc =>
    rcases entry_kind c q with h | h <;> rw [h] at hp
    · exact .inr ⟨t, c, q, rfl, Option.some.inj hp⟩
    · cases hp
  | nomem t c hpc => cases hp
  | kmalloc t c a hpc hfree =>
    simp only [Action.task, hpc]
    exact .inl hp
  | posix t | deliver t hpc => exact .inl hp
  | run t e p hrq hnext =>
    have hf := Flow.of_next hnext
    simp only [Action.task]
    generalize hpc : s.pc t = q at hf
    cases hf <;> first | exact .inl hp | cases hp

theorem CallsIn.step {P : Kind → Bool} {s s' : State} {x : Action} (hi : CallsIn P s)
    (hx : x.callIn P = true) (h : step s x = some s') : CallsIn P s' := by
  obtain ⟨e, p, hm, rfl⟩ := step_eq_some.mp h
  intro u k hk
  by_cases hu : u = x.task
  · subst hu
    rcases hm.kind (by simpa using hk) with hk | ⟨t, c, q, rfl, rfl⟩
    · exact hi _ k hk
    · exact hx
  · exact hi u k (by simpa [hu] using hk)

theorem step_run {s s' : State} {t : Task} (h : step s (.run t) = some s') :
    ∃ e p, Flow s t (s.pc t) e p ∧ s' = (apply s t e).goto t p := by
  obtain ⟨e, p, hm, rfl⟩ := step_eq_some.mp h
  cases hm with
  | run t e p hrq hnext => exact ⟨e, p, .of_next hnext, rfl⟩

/-- A task inside a call moves only by its own steps and the answers of `kmalloc`. -/
theorem step_pc_of_not_run {s s' : State} {x : Action} {t : Task} (h : step s x = some s')
    (hx : x ≠ .run t) (hu : s.pc t ≠ .user) (ha : ∀ c, s.pc t ≠ .openAlloc c) :
    s'.pc t = s.pc t := by
  obtain ⟨e, p, hm, rfl⟩ := step_eq_some.mp h
  by_cases ht : t = x.task
  · subst ht
    cases hm with
    | call t c k hpc | deliver t hpc => exact absurd hpc hu
    | nomem t c hpc | kmalloc t c a hpc hfree => exact absurd hpc (ha c)
    | posix t => simp [Action.task]
    | run t e p hrq hnext => exact absurd rfl hx
  · simp [ht]

theorem step_pc_cases {s s' : State} {x : Action} {t : Task} (h : step s x = some s')
    (hu : s.pc t ≠ .user) (ha : ∀ c, s.pc t ≠ .openAlloc c) :
    s'.pc t = s.pc t ∨ (x = .run t ∧ ∃ e, Flow s t (s.pc t) e (s'.pc t)) := by
  by_cases hx : x = .run t
  · subst hx
    obtain ⟨e, p, hf, rfl⟩ := step_run h
    exact .inr ⟨rfl, e, by simpa using hf⟩
  · exact .inl (step_pc_of_not_run h hx hu ha)

theorem step_pc_of_ne {s s' : State} {x : Action} (h : step s x = some s') {u : Task}
    (hu : u ≠ x.task) : s'.pc u = s.pc u := by
  obtain ⟨e, p, _, rfl⟩ := step_eq_some.mp h
  simp [hu]

def AnyStep (_ : State) (_ : Action) : Prop := True

/-! ### Tasks that take no part in a run -/

def State.idleFrom (s : State) (k : Task) : Prop := ∀ t, k ≤ t → s.pc t = .user

theorem State.idleFrom.step {s s' : State} {x : Action} {k : Task} (hi : s.idleFrom k)
    (hx : x.task < k) (h : step s x = some s') : s'.idleFrom k := by
  intro t ht
  have hne : t ≠ x.task := Nat.ne_of_gt (Nat.lt_of_lt_of_le hx ht)
  rw [step_pc_of_ne h hne]
  exact hi t ht

/-- A test on the first `k` tasks speaks about every task that is not in user mode. -/
theorem State.idleFrom.test {s : State} {k : Task} (hi : s.idleFrom k) {test : Task → Bool}
    (h : (List.range k).all test = true) (u : Task) : s.pc u = .user ∨ test u = true := by
  by_cases hu : u < k
  · exact .inr (List.all_eq_true.mp h u (List.mem_range.mpr hu))
  · exact .inl (hi u (Nat.le_of_not_lt hu))

theorem allUser_of_test {k : Task} {s : State} (hi : s.idleFrom k)
    (h : ((List.range k).all fun u => s.pc u == .user) = true) : ∀ t, s.pc t = .user := by
  intro t
  rcases hi.test h t with hpc | htest
  · exact hpc
  · exact beq_iff_eq.mp htest

/-- An execution by the first `k` tasks is a run in which the other tasks are idle. -/
theorem run_of_idle_test (ok : State → Action → Prop) (xs : List Action) (k : Task)
    (check : State → Action → Bool) (test : State → Bool) {s : State}
    (h : (steps step (fun s x => decide (x.task < k) && check s x) s xs).map test = some true)
    (hs : s.idleFrom k) (hok : ∀ s x, s.idleFrom k → check s x = true → ok s x) :
    ∃ s', Run step ok s xs s' ∧ s'.idleFrom k ∧ test s' = true := by
  obtain ⟨s', hs', ht⟩ := Option.map_eq_some_iff.mp h
  have hrun : Run step ok s xs s' ∧ s'.idleFrom k := by
    refine Run.of_steps_invariant _ (State.idleFrom · k) hs' hs ?_ ?_
    · intro s x s' hi hx hst
      rw [Bool.and_eq_true, decide_eq_true_eq] at hx
      exact hi.step hx.1 hst
    · intro s x hi hx
      rw [Bool.and_eq_true] at hx
      exact hok s x hi hx.2
  exact ⟨s', hrun.1, hrun.2, ht⟩

theorem boot_idleFrom (k : Task) : boot.idleFrom k := fun _ _ => rfl

end DoEvent
