import DoEvent.Waiters

/-!
# The calls as functions

What each `sys_doevent*` does when nothing else runs: the sections of the machine composed
into one function, with the outcome of the call (`none` for a wait that is asleep).
`soloEnds_iff` says that this is exactly what a task of the machine computes when it runs
its call alone, so the functions carry no meaning of their own.
-/

namespace DoEvent

open Transition

def returned (s : State) (t : Task) (r : Int) : State × Option Int := (s.goto t (.ret r), some r)

/-- `r` is the answer of `kmalloc`. -/
def sysDoeventopen (s : State) (t : Task) (c : Cred) (r : Option Addr) : State × Option Int :=
  match r with
  | none => returned s t (-1)
  | some newevent =>
    let s' := openSection { s with inUse := Function.update s.inUse newevent true } c newevent
    returned s' t (s'.mem newevent).id.toInt

def sysDoeventclose (s : State) (t : Task) (c : Cred) (eventID : Int32) : State × Option Int :=
  if isValidEventId eventID then returned s t (-1)
  else match readSection s.mem s.eventlist c eventID with
    | none => returned s t (-1)
    | some e =>
      let process := waitqueueActive (s.mem e)
      let s' := closeSection s e process
      returned { s' with inUse := Function.update s'.inUse e false } t
        (if process then countTasks (s.mem e).queue 0 else 0 : ℕ)

/-- A wait that starts alone finds its condition at 0 in both tests. -/
def sysDoeventwait (s : State) (t : Task) (c : Cred) (eventID : Int32) : State × Option Int :=
  if isValidEventId eventID then returned s t (-1)
  else match readSection s.mem s.eventlist c eventID with
    | none => returned s t (-1)
    | some e =>
      let s' := prepareToWait (s.modify e fun v => { v with condition := 0 }) t e
      if (s.sched t).sigPending then returned (finishWait s' t e) t 1
      else ((s'.setSched t (schedule (s'.sched t))).goto t (.waitAsleep e), none)

def sysDoeventsig (s : State) (t : Task) (c : Cred) (eventID : Int32) : State × Option Int :=
  if isValidEventId eventID then returned s t (-1)
  else match readSection s.mem s.eventlist c eventID with
    | none => returned s t (-1)
    | some e =>
      if waitqueueActive (s.mem e) then
        returned (wakeUpAll (s.modify e fun v => { v with condition := 1 }) e) t
          (countTasks (s.mem e).queue 0)
      else returned s t 0

def sysDoeventinfo (s : State) (t : Task) (num : Int32) (eventIDs : Option ℕ) :
    State × Option Int :=
  if num < 0 ∧ eventIDs ≠ none then returned s t (-1)
  else if infoProbeFails (s.user t) eventIDs then returned s t (-1)
  else
    let r := infoLoop s.mem num eventIDs.isSome s.eventlist (infoArray num) 0
    let q := infoFinish (s.user t) num eventIDs r.1 r.2
    returned { s with user := Function.update s.user t q.1 } t q.2

def sysDoeventchown (s : State) (t : Task) (c : Cred) (eventID : Int32) (UID GID : UInt32)
    (junk : Option Addr) : State × Option Int :=
  if isValidEventId eventID ∨ UID < 0 ∨ GID < 0 then returned s t (-1)
  else match readSectionUser s.mem s.eventlist c eventID junk with
    | none => returned s t (-1)
    | some e => returned (s.modify e fun v => { v with uid := UID, gid := GID }) t 0

def sysDoeventchmod (s : State) (t : Task) (c : Cred) (eventID UIDFlag GIDFlag : Int32)
    (junk : Option Addr) : State × Option Int :=
  if isValidEventId eventID then returned s t (-1)
  else match readSectionUser s.mem s.eventlist c eventID junk with
    | none => returned s t (-1)
    | some e => returned (s.modify e fun v => { v with uidFlag := UIDFlag, gidFlag := GIDFlag }) t 0

def sysDoeventstat (s : State) (t : Task) (eventID : Int32) (p : StatPtrs) (junk : Option Addr) :
    State × Option Int :=
  match statProbe (s.user t) p with
  | none => returned s t (-1)
  | some v =>
    if isValidEventId eventID then returned s t (-1)
    else
      let r := statLoop s.mem eventID junk v s.eventlist
      match r.1 with
      | none => returned s t (-1)
      | some _ =>
        let q := statFinish (s.user t) p r.2
        returned { s with user := Function.update s.user t q.1 } t q.2

/-- A call with the answer of `kmalloc`, which only open asks for. -/
def sysCall (s : State) (t : Task) (c : Cred) (k : Call) (r : Option Addr) : State × Option Int :=
  match k with
  | .doeventopen => sysDoeventopen s t c r
  | .doeventclose eventID => sysDoeventclose s t c eventID
  | .doeventwait eventID => sysDoeventwait s t c eventID
  | .doeventsig eventID => sysDoeventsig s t c eventID
  | .doeventinfo num eventIDs => sysDoeventinfo s t num eventIDs
  | .doeventchown eventID UID GID junk => sysDoeventchown s t c eventID UID GID junk
  | .doeventchmod eventID UIDFlag GIDFlag junk => sysDoeventchmod s t c eventID UIDFlag GIDFlag junk
  | .doeventstat eventID p junk => sysDoeventstat s t eventID p junk

/-! ### A task that runs its call alone -/

def OwnStep (t : Task) (_ : State) (x : Action) : Prop := x = .run t ∨ ∃ r, x = .kmalloc t r

theorem OwnStep.task {t : Task} {s : State} {x : Action} (h : OwnStep t s x) : x.task = t := by
  rcases h with rfl | ⟨r, rfl⟩ <;> rfl

def Ended (s : State) (t : Task) : Option Int → Prop
  | some r => s.pc t = .ret r
  | none => ∃ a, s.pc t = .waitAsleep a ∧ (s.sched t).onRq = false

def SoloEnds (t : Task) (s s' : State) (o : Option Int) : Prop :=
  ∃ xs, Run step (OwnStep t) s xs s' ∧ Ended s' t o

section
variable {s s' : State} {t : Task} {o : Option Int}

theorem soloEnds_step {q p : Pc} {e : Effect} (hrq : (s.sched t).onRq = true)
    (hf : Flow (s.goto t q) t q e p) (hret : ∀ r, q ≠ .ret r) :
    SoloEnds t (s.goto t q) s' o ↔ SoloEnds t ((apply s t e).goto t p) s' o := by
  have hstep : step (s.goto t q) (.run t) = some ((apply s t e).goto t p) := by
    have hrq' : ((s.goto t q).sched t).onRq = true := hrq
    rw [step_of_flow hrq' (by simp) hf, apply_goto, goto_goto]
  constructor
  · intro hsolo
    obtain ⟨xs, hr, hend⟩ := hsolo
    cases hr with
    | nil s =>
      exfalso
      cases o with
      | some r => exact hret r (by simpa [Ended] using hend)
      | none =>
        obtain ⟨a, _, hoff⟩ := hend
        rw [goto_sched, hrq] at hoff
        cases hoff
    | cons hown hst hrest =>
      rcases hown with rfl | ⟨r, rfl⟩
      · rw [hstep] at hst
        cases hst
        exact ⟨_, hrest, hend⟩
      · exfalso
        cases hf <;> simp [step, kmallocStep] at hst
  · intro hsolo
    obtain ⟨xs, hr, hend⟩ := hsolo
    exact ⟨.run t :: xs, .cons (.inl rfl) hstep hr, hend⟩

theorem soloEnds_ret {r : Int} :
    SoloEnds t (s.goto t (.ret r)) s' o ↔ (s', o) = returned s t r := by
  constructor
  · intro hsolo
    obtain ⟨xs, hr, hend⟩ := hsolo
    cases hr with
    | nil s =>
      cases o with
      | some r' =>
        have hpc : (.ret r : Pc) = .ret r' := by simpa [Ended] using hend
        cases hpc
        rfl
      | none =>
        obtain ⟨a, hpc, _⟩ := hend
        simp at hpc
    | cons hown hst hrest =>
      exfalso
      rcases hown with rfl | ⟨q, rfl⟩
      · -- In user mode the task has no further step of its own.
        obtain ⟨e, p, hf, rfl⟩ := step_run hst
        simp only [goto_pc, Function.update_self] at hf
        cases hf
        cases hrest with
        | nil s => cases o <;> simp [Ended, apply] at hend
        | cons hown hst _ =>
          rcases hown with rfl | ⟨q, rfl⟩ <;> simp [step, kmallocStep, next, apply] at hst
      · simp [step, kmallocStep] at hst
  · intro h
    cases h
    exact ⟨[], .nil _, by simp [Ended]⟩

theorem soloEnds_asleep {a : Addr} (hoff : (s.sched t).onRq = false) :
    SoloEnds t (s.goto t (.waitAsleep a)) s' o ↔ (s', o) = (s.goto t (.waitAsleep a), none) := by
  constructor
  · intro hsolo
    obtain ⟨xs, hr, hend⟩ := hsolo
    cases hr with
    | nil s =>
      cases o with
      | some r => simp [Ended] at hend
      | none => rfl
    | cons hown hst hrest =>
      rcases hown with rfl | ⟨q, rfl⟩
      · simp [step, hoff] at hst
      · simp [step, kmallocStep] at hst
  · intro h
    cases h
    exact ⟨[], .nil _, a, by simp, hoff⟩

end

/-! ### The functions are what the machine computes -/

theorem apply_onRq {s : State} {t : Task} {e : Effect} (h : (s.sched t).onRq = true)
    (hne : e ≠ .schedule) : ((apply s t e).sched t).onRq = true := by
  rw [apply_sched_self]
  cases e with
  | schedule => exact absurd rfl hne
  | posix => exact onRq_signalWakeUp h
  | prepareToWait a | finishWait a | deliver => exact h
  | _ =>
    dsimp only
    split
    · split
      · exact onRq_wake h
      · exact h
    · exact h

section
variable {s s' : State} {t : Task} {o : Option Int} (hrq : (s.sched t).onRq = true)
include hrq

theorem soloEnds_skip {q p : Pc} (hf : Flow (s.goto t q) t q .skip p) (hret : ∀ r, q ≠ .ret r) :
    SoloEnds t (s.goto t q) s' o ↔ SoloEnds t (s.goto t p) s' o :=
  soloEnds_step hrq hf hret

theorem soloEnds_fail {q : Pc} {r : Int} (hf : Flow (s.goto t q) t q .skip (.ret r))
    (hret : ∀ r, q ≠ .ret r) : SoloEnds t (s.goto t q) s' o ↔ (s', o) = returned s t r :=
  (soloEnds_skip hrq hf hret).trans soloEnds_ret

theorem soloEnds_last {q : Pc} {e : Effect} {r : Int} (hf : Flow (s.goto t q) t q e (.ret r))
    (hret : ∀ r, q ≠ .ret r) : SoloEnds t (s.goto t q) s' o ↔ (s', o) = returned (apply s t e) t r :=
  (soloEnds_step hrq hf hret).trans soloEnds_ret

theorem soloEnds_opened (c : Cred) (a : Addr) :
    SoloEnds t ((apply s t (.kmalloc a)).goto t (.openWrite c a)) s' o ↔
      (s', o) = sysDoeventopen s t c (some a) := by
  have hrq₁ := apply_onRq hrq (e := .kmalloc a) (by simp)
  have hrq₂ := apply_onRq hrq₁ (e := .openSection c a) (by simp)
  rw [soloEnds_step hrq₁ (.openWrite c a) (by simp)]
  exact soloEnds_last hrq₂ (.openRet a) (by simp)

theorem soloEnds_open (c : Cred) :
    SoloEnds t (s.goto t (.openAlloc c)) s' o ↔
      ∃ r, (∀ a, r = some a → s.inUse a = false) ∧ (s', o) = sysDoeventopen s t c r := by
  have hpc : (s.goto t (.openAlloc c)).pc t = .openAlloc c := by simp
  constructor
  · intro hsolo
    obtain ⟨xs, hr, hend⟩ := hsolo
    cases hr with
    | nil s => cases o <;> simp [Ended] at hend
    | cons hown hst hrun =>
      rcases hown with rfl | ⟨r, rfl⟩
      · simp [step, next] at hst
      · cases r with
        | none =>
          simp only [step, hpc, kmallocStep, Option.some.injEq, goto_goto] at hst
          subst hst
          exact ⟨none, by simp, soloEnds_ret.mp ⟨_, hrun, hend⟩⟩
        | some a =>
          simp only [step, hpc, kmallocStep] at hst
          split_ifs at hst with hfree
          simp only [Option.some.injEq, apply_goto, goto_goto] at hst
          subst hst
          exact ⟨some a, by simpa using hfree, (soloEnds_opened hrq c a).mp ⟨_, hrun, hend⟩⟩
  · intro hanswer
    obtain ⟨r, hfree, heq⟩ := hanswer
    cases r with
    | none =>
      refine ⟨[.kmalloc t none], .single (.inr ⟨none, rfl⟩) ?_, ?_⟩
      · cases heq
        simp [step, kmallocStep]
      · cases heq
        simp [Ended]
    | some a =>
      obtain ⟨xs, hr, hend⟩ := (soloEnds_opened hrq c a).mpr heq
      refine ⟨.kmalloc t (some a) :: xs, .cons (.inr ⟨_, rfl⟩) ?_ hr, hend⟩
      simp [step, kmallocStep, hfree a rfl, apply_goto]

theorem soloEnds_close (c : Cred) (i : Int32) :
    SoloEnds t (s.goto t (entry c (.doeventclose i))) s' o ↔ (s', o) = sysDoeventclose s t c i := by
  simp only [entry, sysDoeventclose]
  split
  · exact soloEnds_ret
  cases hr : readSection s.mem s.eventlist c i with
  | none => exact soloEnds_fail hrq (.closeMiss c i hr) (by simp)
  | some e =>
    have hrq' := apply_onRq hrq (e := .closeSection e (waitqueueActive (s.mem e))) (by simp)
    rw [soloEnds_skip hrq (.closeFound c i e hr) (by simp),
      soloEnds_skip hrq (.closeActive e) (by simp), soloEnds_step hrq (.closeWrite e _) (by simp)]
    exact soloEnds_last hrq' (.closeKfree e _) (by simp)

theorem soloEnds_wait (c : Cred) (i : Int32) :
    SoloEnds t (s.goto t (entry c (.doeventwait i))) s' o ↔ (s', o) = sysDoeventwait s t c i := by
  simp only [entry, sysDoeventwait]
  split
  · exact soloEnds_ret
  cases hr : readSection s.mem s.eventlist c i with
  | none => exact soloEnds_fail hrq (.waitMiss c i hr) (by simp)
  | some e =>
    have hc : ((apply s t (.setCondition e 0)).mem e).condition = 0 := by simp [apply_condition]
    have hrq₁ := apply_onRq hrq (e := .setCondition e 0) (by simp)
    have hrq₂ := apply_onRq hrq₁ (e := .prepareToWait e) (by simp)
    have hc₂ : ((apply (apply s t (.setCondition e 0)) t (.prepareToWait e)).mem e).condition = 0 := by
      rw [apply_condition]
      exact hc
    have hsched : (apply (apply s t (.setCondition e 0)) t (.prepareToWait e)).sched t =
        { s.sched t with linked := true, state := .interruptible } := apply_sched_self ..
    rw [soloEnds_skip hrq (.waitFound c i e hr) (by simp),
      soloEnds_step hrq (.waitReset e) (by simp), soloEnds_skip hrq₁ (.waitEnter e hc) (by simp),
      soloEnds_step hrq₁ (.waitPrepare e) (by simp), soloEnds_skip hrq₂ (.waitCommit e hc₂) (by simp)]
    dsimp only
    split
    next hsig =>
      rw [soloEnds_skip hrq₂ (.waitSignalled e (by simpa [hsched] using hsig)) (by simp)]
      exact soloEnds_last hrq₂ (.waitFinish e) (by simp)
    next hsig =>
      have hsig : (s.sched t).sigPending = false := by simpa using hsig
      rw [soloEnds_skip hrq₂ (.waitUnsignalled e (by simpa [hsched] using hsig)) (by simp),
        soloEnds_step hrq₂ (.waitSchedule e) (by simp)]
      refine soloEnds_asleep ?_
      rw [apply_sched_self, hsched]
      simp [schedule, hsig]

theorem soloEnds_sig (c : Cred) (i : Int32) :
    SoloEnds t (s.goto t (entry c (.doeventsig i))) s' o ↔ (s', o) = sysDoeventsig s t c i := by
  simp only [entry, sysDoeventsig]
  split
  · exact soloEnds_ret
  cases hr : readSection s.mem s.eventlist c i with
  | none => exact soloEnds_fail hrq (.sigMiss c i hr) (by simp)
  | some e =>
    rw [soloEnds_skip hrq (.sigFound c i e hr) (by simp)]
    dsimp only
    split
    next ha =>
      have hrq' := apply_onRq hrq (e := .setCondition e 1) (by simp)
      rw [soloEnds_skip hrq (.sigActive e ha) (by simp), soloEnds_step hrq (.sigWrite e) (by simp)]
      exact soloEnds_last hrq' (.sigWake e _) (by simp)
    next ha => exact soloEnds_fail hrq (.sigIdle e (by simpa using ha)) (by simp)

theorem soloEnds_info (c : Cred) (num : Int32) (eventIDs : Option ℕ) :
    SoloEnds t (s.goto t (entry c (.doeventinfo num eventIDs))) s' o ↔
      (s', o) = sysDoeventinfo s t num eventIDs := by
  simp only [entry, sysDoeventinfo]
  split
  · exact soloEnds_ret
  split
  next hp => exact soloEnds_fail hrq (.infoFault num eventIDs hp) (by simp)
  next hp =>
    rw [soloEnds_skip hrq (.infoProbe num eventIDs (by simpa using hp)) (by simp),
      soloEnds_skip hrq (.infoRead num eventIDs) (by simp)]
    exact soloEnds_last hrq (.infoCopy num eventIDs _ _) (by simp)

theorem soloEnds_chown (c : Cred) (i : Int32) (UID GID : UInt32) (junk : Option Addr) :
    SoloEnds t (s.goto t (entry c (.doeventchown i UID GID junk))) s' o ↔
      (s', o) = sysDoeventchown s t c i UID GID junk := by
  simp only [entry, sysDoeventchown]
  split
  · exact soloEnds_ret
  cases hr : readSectionUser s.mem s.eventlist c i junk with
  | none => exact soloEnds_fail hrq (.chownMiss c i UID GID junk hr) (by simp)
  | some e =>
    rw [soloEnds_skip hrq (.chownFound c i UID GID junk e hr) (by simp)]
    exact soloEnds_last hrq (.chownWrite c e UID GID) (by simp)

theorem soloEnds_chmod (c : Cred) (i UIDFlag GIDFlag : Int32) (junk : Option Addr) :
    SoloEnds t (s.goto t (entry c (.doeventchmod i UIDFlag GIDFlag junk))) s' o ↔
      (s', o) = sysDoeventchmod s t c i UIDFlag GIDFlag junk := by
  simp only [entry, sysDoeventchmod]
  split
  · exact soloEnds_ret
  cases hr : readSectionUser s.mem s.eventlist c i junk with
  | none => exact soloEnds_fail hrq (.chmodMiss c i UIDFlag GIDFlag junk hr) (by simp)
  | some e =>
    rw [soloEnds_skip hrq (.chmodFound c i UIDFlag GIDFlag junk e hr) (by simp)]
    exact soloEnds_last hrq (.chmodWrite c e UIDFlag GIDFlag) (by simp)

theorem soloEnds_stat (c : Cred) (i : Int32) (q : StatPtrs) (junk : Option Addr) :
    SoloEnds t (s.goto t (entry c (.doeventstat i q junk))) s' o ↔
      (s', o) = sysDoeventstat s t i q junk := by
  simp only [entry, sysDoeventstat]
  cases hv : statProbe (s.user t) q with
  | none => exact soloEnds_fail hrq (.statFault i q junk (.inl hv)) (by simp)
  | some v =>
    dsimp only
    split
    next hi => exact soloEnds_fail hrq (.statFault i q junk (.inr hi)) (by simp)
    next hi =>
      rw [soloEnds_skip hrq (.statProbe i q junk v hv (by simpa using hi)) (by simp)]
      cases hr : (statLoop s.mem i junk v s.eventlist).1 with
      | none => exact soloEnds_fail hrq (.statMiss i q v junk hr) (by simp)
      | some e =>
        rw [soloEnds_skip hrq (.statFound i q v junk e hr) (by simp)]
        exact soloEnds_last hrq (.statCopy q _) (by simp)

/-- A task that makes a call and runs alone ends exactly as `sysCall` says, for some
answer of `kmalloc`. -/
theorem soloEnds_iff (c : Cred) (k : Call) :
    SoloEnds t (s.goto t (entry c k)) s' o ↔
      ∃ r, (∀ a, r = some a → s.inUse a = false) ∧ (s', o) = sysCall s t c k r := by
  have hfixed : ∀ {P : Prop}, P ↔ ∃ r : Option Addr, (∀ a, r = some a → s.inUse a = false) ∧ P :=
    fun {P} => ⟨fun h => ⟨none, by simp, h⟩, fun h => h.elim fun _ hr => hr.2⟩
  cases k with
  | doeventopen => exact soloEnds_open hrq c
  | doeventclose i => exact (soloEnds_close hrq c i).trans hfixed
  | doeventwait i => exact (soloEnds_wait hrq c i).trans hfixed
  | doeventsig i => exact (soloEnds_sig hrq c i).trans hfixed
  | doeventinfo num q => exact (soloEnds_info hrq c num q).trans hfixed
  | doeventchown i U G junk => exact (soloEnds_chown hrq c i U G junk).trans hfixed
  | doeventchmod i u g junk => exact (soloEnds_chmod hrq c i u g junk).trans hfixed
  | doeventstat i q junk => exact (soloEnds_stat hrq c i q junk).trans hfixed

end

end DoEvent
