import DoEvent.Effects
import DoEvent.Reuse

/-!
# The calls that take an id, up to their return

Close, sig, chown and chmod run to their return at a stretch. A wait goes on after its
sleep, through the pointer it looked up when it was called, and meanwhile the event may
have been closed and its record handed out again. As long as no open gets a record that a
wait still comes back to, whatever a wait does from its call to its return concerns the
event it was called for.
-/

namespace DoEvent

open Transition

/-- Calls one at a time, no record handed out while a wait still comes back to it, and no
open numbers its event while the last id is 2^31-1. -/
def SettledStep (s : State) (x : Action) : Prop :=
  OneAtATime s x ∧ NoReuse s x ∧ ∀ a, Creates s x a → ¬ IdsExhausted s

theorem OneAtATime.unlinksAlone {s : State} {x : Action} (h : OneAtATime s x) : UnlinksAlone s x := by
  rintro a ⟨t, process, rfl, _⟩ u hu hold
  rcases h with h | h
  · cases h
  · have hpark := h u hu
    rw [not_parked_of_hold hold (by simp)] at hpark
    cases hpark

theorem SettledStep.safe {s : State} {x : Action} (h : SettledStep s x) : SafeStep s x :=
  ⟨h.2.1, h.1.unlinksAlone, h.2.2⟩

structure SettledInv (s : State) : Prop where
  seq : SeqInv s
  safe : SafeInv s

theorem SettledInv.step {s s' : State} {x : Action} (hi : SettledInv s) (hx : SettledStep s x)
    (h : step s x = some s') : SettledInv s' :=
  ⟨hi.seq.step hx.1 h, hi.safe.step hx.safe h⟩

theorem settledInv_run {s s' : State} {xs : List Action} (h : Run step SettledStep s xs s')
    (hi : SettledInv s) : SettledInv s' :=
  h.invariant SettledInv hi fun _ _ _ hi hx hstep => hi.step hx hstep

theorem doeventInit_settledInv (mem : Addr → Event) (user : Task → UserMem) :
    SettledInv (doeventInit mem user) :=
  ⟨doeventInit_seqInv mem user, doeventInit_safeInv mem user⟩

/-! ### What a wait may do -/

/-- One or more steps of task `t` in its wait on `e`: the condition may be reset, and the
task's own entry may come and go. -/
structure WaitStep (s : State) (t : Task) (e : Addr) (s' : State) : Prop where
  only : OnlyEvent s s' t e
  listed : s'.eventlist = s.eventlist
  inUse : s'.inUse = s.inUse
  nobody : ∀ u, u ≠ t → s'.sched u = s.sched u
  condition : (s'.mem e).condition = (s.mem e).condition ∨ (s'.mem e).condition = 0
  queue : (s'.mem e).queue.filter (· ≠ t) = (s.mem e).queue.filter (· ≠ t)

/-- A wait that has been woken and runs on alone: it returns 1 when it finds the condition
set or a signal pending, and goes back to sleep on the event otherwise. -/
structure ResumeEffect (s : State) (t : Task) (e : Addr) (s' : State) (o : Option Int) : Prop where
  wait : WaitStep s t e s'
  condition : (s'.mem e).condition = (s.mem e).condition
  ends : (o = some 1 ∧ t ∉ (s'.mem e).queue ∧
      ((s.mem e).condition ≠ 0 ∨ (s.sched t).sigPending = true)) ∨
    (o = none ∧ t ∈ (s'.mem e).queue ∧ s'.blockedOn t e ∧
      (s.mem e).condition = 0 ∧ (s.sched t).sigPending = false)

/-- The state `s` between the call of a wait on the event at `e` by task `t` and its return.
No open fills in the record, so that it is the event of the call or what a close has left
of it. -/
structure WaitBound (t : Task) (e : Addr) (s : State) : Prop where
  value : ∀ r, s.pc t = .ret r → r = 1
  same : (∀ r, s.pc t ≠ .ret r) → ∀ x, ¬ Creates s x e
  step : ∀ s', step s (.run t) = some s' → WaitStep s t e s'
  resume : ∀ a, s.pc t = .waitAsleep a → a = e ∧ ((s.sched t).onRq = true →
    ∃ s' o, (∀ s₁ o₁, SoloEnds t s s₁ o₁ ↔ s₁ = s' ∧ o₁ = o) ∧ ResumeEffect s t e s' o)

/-- The steps of a settled run before the call of task `t` returns. -/
def BeforeReturn (t : Task) (s : State) (x : Action) : Prop :=
  SettledStep s x ∧ ∀ r, s.pc t = .ret r → x ≠ .run t

section
variable {s s' : State} {t : Task} {e : Addr} {f : Effect} {p : Pc}

def Effect.waits (e : Addr) : Effect → Prop
  | .skip | .schedule => True
  | .setCondition a v => a = e ∧ v = 0
  | .prepareToWait a | .finishWait a => a = e
  | _ => False

theorem Effect.waits.onEvent (hf : f.waits e) : f.onEvent e := by
  cases f with
  | setCondition a v => exact hf.1
  | _ => first | exact hf | exact hf.elim

theorem waitStep_apply (hn : s.eventlist.Nodup) (f : Effect) (hf : f.waits e) :
    WaitStep s t e (apply s t f) where
  only := onlyEvent_apply hn f hf.onEvent
  listed := by
    rw [apply_eventlist]
    cases f <;> first | rfl | exact hf.elim
  inUse := by
    rw [apply_inUse]
    cases f <;> first | rfl | exact hf.elim
  nobody := by
    intro u hu
    have hw : f.wakes = none := by cases f <;> first | rfl | exact hf.elim
    rw [apply_sched_of_ne s t f hu, hw]
  condition := by
    rw [apply_condition]
    cases f with
    | setCondition a v =>
      obtain ⟨rfl, rfl⟩ := hf
      exact .inr (by simp)
    | _ => first | exact .inl rfl | exact hf.elim
  queue := by
    rw [apply_queue]
    cases f with
    | prepareToWait a =>
      dsimp only
      split
      · simp
      · rfl
    | finishWait a =>
      dsimp only
      split
      · rw [← List.erase_filter, List.erase_of_not_mem (by simp)]
      · rfl
    | _ => first | rfl | exact hf.elim

theorem WaitStep.goto (h : WaitStep s t e s') (p : Pc) : WaitStep s t e (s'.goto t p) where
  only := h.only.goto p
  listed := h.listed
  inUse := h.inUse
  nobody := h.nobody
  condition := h.condition
  queue := h.queue

theorem WaitStep.trans {s₁ s₂ : State} (h : WaitStep s t e s₁) (h' : WaitStep s₁ t e s₂) :
    WaitStep s t e s₂ where
  only := h.only.trans h'.only
  listed := h'.listed.trans h.listed
  inUse := h'.inUse.trans h.inUse
  nobody := fun u hu => (h'.nobody u hu).trans (h.nobody u hu)
  condition := by
    rcases h'.condition with hc | hc
    · rw [hc]
      exact h.condition
    · exact .inr hc
  queue := h'.queue.trans h.queue

/-! ### A woken wait that runs on alone -/

/-- The state `s₂` in which the woken task has queued itself again, seen from the state `s`
in which it ran on. -/
structure Requeued (s : State) (t : Task) (e : Addr) (s₂ : State) : Prop where
  wait : WaitStep s t e s₂
  condition : (s₂.mem e).condition = (s.mem e).condition
  mem : t ∈ (s₂.mem e).queue
  nodup : (s₂.mem e).queue.Nodup
  self : s₂.sched t = { s.sched t with linked := true, state := .interruptible }

theorem requeued_prepareToWait (hi : SettledInv s) (hpc : s.pc t = .waitAsleep e) :
    Requeued s t e (apply s t (.prepareToWait e)) := by
  have hwait : s.holds t .waiting e := holds_of_pc hpc rfl
  have htracked : s.tracked e := tracked_of_holds hwait rfl
  have hn := hi.safe.entries.nodup e htracked
  have hqueue : t ∈ ((apply s t (.prepareToWait e)).mem e).queue ∧
      ((apply s t (.prepareToWait e)).mem e).queue.Nodup := by
    rw [apply_queue]
    cases hl : (s.sched t).linked with
    | true => simpa using ⟨hi.safe.linked t e hwait hl, hn⟩
    | false =>
      have hnot : t ∉ (s.mem e).queue := fun hq => by
        rw [(hi.safe.entries.queued t e htracked hq).2] at hl
        cases hl
      simpa using ⟨hnot, hn⟩
  exact ⟨waitStep_apply hi.seq.list.nodup _ rfl, by rw [apply_condition], hqueue.1, hqueue.2,
    apply_sched_self ..⟩

theorem Requeued.finishWait {s₂ : State} (h : Requeued s t e s₂) (hn : s.eventlist.Nodup)
    (hwhy : (s.mem e).condition ≠ 0 ∨ (s.sched t).sigPending = true) :
    ResumeEffect s t e (returned (apply s₂ t (.finishWait e)) t 1).1 (some 1) := by
  have hn₂ : s₂.eventlist.Nodup := h.wait.listed ▸ hn
  refine ⟨(h.wait.trans (waitStep_apply hn₂ (.finishWait e) rfl)).goto _, ?_, .inl ⟨rfl, ?_, hwhy⟩⟩
  · exact (apply_condition s₂ t (.finishWait e) e).trans h.condition
  · change t ∉ ((apply s₂ t (.finishWait e)).mem e).queue
    rw [apply_queue]
    simpa [h.self] using h.nodup.not_mem_erase

theorem Requeued.schedule {s₂ : State} (h : Requeued s t e s₂) (hn : s.eventlist.Nodup)
    (hc : (s.mem e).condition = 0) (hsig : (s.sched t).sigPending = false) :
    ResumeEffect s t e ((apply s₂ t .schedule).goto t (.waitAsleep e)) none := by
  have hn₂ : s₂.eventlist.Nodup := h.wait.listed ▸ hn
  refine ⟨(h.wait.trans (waitStep_apply hn₂ .schedule trivial)).goto _, ?_, .inr ⟨rfl, ?_, ?_, hc, hsig⟩⟩
  · exact (apply_condition s₂ t .schedule e).trans h.condition
  · change t ∈ ((apply s₂ t .schedule).mem e).queue
    rw [apply_queue]
    exact h.mem
  · refine ⟨by simp, ?_, ?_⟩ <;> rw [goto_sched, apply_sched_self, h.self] <;>
      simp [DoEvent.schedule, hsig]

/-- What a woken wait does alone, after it has queued itself again, depends on the condition
and the pending signals only. -/
theorem resume_effect (hi : SettledInv s) (hpc : s.pc t = .waitAsleep e)
    (hrq : (s.sched t).onRq = true) :
    ∃ s' o, (∀ s₁ o₁, SoloEnds t s s₁ o₁ ↔ s₁ = s' ∧ o₁ = o) ∧ ResumeEffect s t e s' o := by
  have hn := hi.seq.list.nodup
  have hq := requeued_prepareToWait hi hpc
  have hrq₁ := apply_onRq hrq (e := .prepareToWait e) (by simp)
  have hstart : ∀ s₁ o₁, SoloEnds t s s₁ o₁ ↔
      SoloEnds t ((apply s t (.prepareToWait e)).goto t (.waitRetest e)) s₁ o₁ := by
    intro s₁ o₁
    have hs : s.goto t (.waitAsleep e) = s := hpc ▸ goto_self s t
    rw [← soloEnds_step hrq (.waitPrepare e) (by simp), ← soloEnds_skip hrq (.waitAwake e) (by simp), hs]
  by_cases hc : (s.mem e).condition = 0
  · have hc₁ := hq.condition.trans hc
    cases hsig : (s.sched t).sigPending with
    | true =>
      refine ⟨_, some 1, fun s₁ o₁ => ?_, hq.finishWait hn (.inr hsig)⟩
      rw [hstart, soloEnds_skip hrq₁ (.waitCommit e hc₁) (by simp),
        soloEnds_skip hrq₁ (.waitSignalled e (by simpa [hq.self] using hsig)) (by simp),
        soloEnds_last hrq₁ (.waitFinish e) (by simp), returned, Prod.mk.injEq]
    | false =>
      have hoff : ((apply (apply s t (.prepareToWait e)) t .schedule).sched t).onRq = false := by
        rw [apply_sched_self, hq.self]
        simp [DoEvent.schedule, hsig]
      refine ⟨_, none, fun s₁ o₁ => ?_, hq.schedule hn hc hsig⟩
      rw [hstart, soloEnds_skip hrq₁ (.waitCommit e hc₁) (by simp),
        soloEnds_skip hrq₁ (.waitUnsignalled e (by simpa [hq.self] using hsig)) (by simp),
        soloEnds_step hrq₁ (.waitSchedule e) (by simp), soloEnds_asleep hoff, Prod.mk.injEq]
  · refine ⟨_, some 1, fun s₁ o₁ => ?_, hq.finishWait hn (.inl hc)⟩
    rw [hstart, soloEnds_skip hrq₁ (.waitLeave e (hq.condition ▸ hc)) (by simp),
      soloEnds_last hrq₁ (.waitFinish e) (by simp), returned, Prod.mk.injEq]

/-! ### From the call to the return -/

/-- Where task `t` is after it has called wait in the state `s`, in which the lookup finds
the event at `e`. Nothing but a POSIX signal can come between the call and the lookup. -/
inductive InWait (s : State) (t : Task) (c : Cred) (i : Int32) (e : Addr) (m : State) : Prop where
  | looking (hpc : m.pc t = .waitRead c i) (hmem : m.mem = s.mem) (hlist : m.eventlist = s.eventlist)
  | waiting (h : m.holds t .waiting e)
  | done (hpc : m.pc t = .ret 1)

variable {c : Cred} {i : Int32} {m m' : State} {x : Action}

theorem InWait.flow (hi : InWait s t c i e m) (hr : readSection s.mem s.eventlist c i = some e)
    (hf : Flow m t (m.pc t) f p) : f.waits e ∧ (p.hold = some (.waiting, e) ∨ p = .ret 1 ∨
      (m.pc t = .ret 1 ∧ p = .user)) := by
  cases hi with
  | looking hpc hmem hlist =>
    rw [hpc] at hf
    rw [← hmem, ← hlist] at hr
    cases hf with
    | waitMiss _ _ h =>
      rw [hr] at h
      cases h
    | waitFound _ _ b h =>
      rw [hr] at h
      cases h
      exact ⟨trivial, .inl rfl⟩
  | waiting h =>
    rw [State.holds] at h
    generalize m.pc t = q at hf h
    cases hf with
    | waitReset a | waitEnter a hc | waitPrepare a | waitCommit a hc | waitLeave a hc
    | waitSignalled a hc | waitUnsignalled a hc | waitSchedule a | waitAwake a =>
      cases h
      exact ⟨by simp [Effect.waits], .inl rfl⟩
    | waitPast a hc | waitFinish a =>
      cases h
      exact ⟨by simp [Effect.waits], .inr (.inl rfl)⟩
    | _ => cases h
  | done hpc =>
    rw [hpc] at hf
    cases hf
    exact ⟨trivial, .inr (.inr ⟨hpc, rfl⟩)⟩

/-- Whatever comes between the call and the lookup of a wait leaves the events alone. -/
theorem looking_step (hpc : m.pc t = .waitRead c i) (hx : OneAtATime m x) (hrun : x ≠ .run t)
    (h : step m x = some m') : m'.mem = m.mem ∧ m'.eventlist = m.eventlist := by
  obtain ⟨f, p, hm, rfl⟩ := step_eq_some.mp h
  have hposix : x.isPosix = true := by
    rcases hx with hx | hx
    · exact hx
    · have ht : t = x.task := by
        by_contra hne
        have hpark := hx t hne
        rw [hpc] at hpark
        cases hpark
      subst ht
      cases hm with
      | call t c k hq | nomem t c hq | kmalloc t c a hq hfree | deliver t hq =>
        rw [Action.task, hq] at hpc
        cases hpc
      | posix t => rfl
      | run t e p hrq hnext => exact absurd rfl hrun
  cases hm with
  | posix t => exact ⟨rfl, rfl⟩
  | _ => cases hposix

theorem InWait.ne_user (hi : InWait s t c i e m) :
    m.pc t ≠ .user ∧ ∀ c, m.pc t ≠ .openAlloc c := by
  cases hi with
  | looking hpc | done hpc => simp [hpc]
  | waiting hw =>
    refine ⟨ne_user_of_holds hw, fun c hpc => ?_⟩
    rw [State.holds, hpc] at hw
    cases hw

theorem InWait.step (hi : InWait s t c i e m) (hr : readSection s.mem s.eventlist c i = some e)
    (hx : BeforeReturn t m x) (h : step m x = some m') : InWait s t c i e m' := by
  by_cases hrun : x = .run t
  · subst hrun
    obtain ⟨f, p, hf, rfl⟩ := step_run h
    rcases (hi.flow hr hf).2 with hp | rfl | ⟨hpc, _⟩
    · exact .waiting (holds_goto.mpr (.inl ⟨rfl, hp⟩))
    · exact .done (by simp)
    · exact absurd rfl (hx.2 1 hpc)
  · have hpc : m'.pc t = m.pc t := step_pc_of_not_run h hrun hi.ne_user.1 hi.ne_user.2
    cases hi with
    | looking hq hmem hlist =>
      obtain ⟨hmem', hlist'⟩ := looking_step hq hx.1.1 hrun h
      exact .looking (hpc.trans hq) (hmem'.trans hmem) (hlist'.trans hlist)
    | waiting hw => exact .waiting (by rwa [State.holds, hpc])
    | done hq => exact .done (hpc.trans hq)

theorem InWait.tracked (hi : InWait s t c i e m) (hr : readSection s.mem s.eventlist c i = some e)
    (hret : ∀ r, m.pc t ≠ .ret r) : m.tracked e := by
  cases hi with
  | looking _ _ hlist => exact .inl (hlist ▸ (readSection_some hr).1)
  | waiting hw => exact tracked_of_holds hw rfl
  | done hpc => exact absurd hpc (hret 1)

theorem InWait.bound (hi : InWait s t c i e m) (hr : readSection s.mem s.eventlist c i = some e)
    (hs : SettledInv m) : WaitBound t e m where
  value := by
    intro r hpc
    cases hi with
    | looking hq =>
      rw [hpc] at hq
      cases hq
    | waiting hw =>
      rw [State.holds, hpc] at hw
      cases hw
    | done hq =>
      rw [hpc] at hq
      cases hq
      rfl
  same := by
    rintro hret x ⟨u, c, rfl, hpc⟩
    exact (hs.safe.heap.opening u e (holds_of_pc hpc rfl)).2.2 (hi.tracked hr hret)
  step := by
    intro s' h
    obtain ⟨f, p, hf, rfl⟩ := step_run h
    exact (waitStep_apply hs.seq.list.nodup f (hi.flow hr hf).1).goto p
  resume := by
    intro a hpc
    have hae : a = e := by
      cases hi with
      | looking hq | done hq =>
        rw [hpc] at hq
        cases hq
      | waiting hw =>
        rw [State.holds, hpc] at hw
        cases hw
        rfl
    subst hae
    exact ⟨rfl, resume_effect hs hpc⟩

/-- A wait that finds the event at `e` keeps to it until it returns. -/
theorem wait_bound (hs : SettledInv s) (ht : s.pc t = .user) (hv : isValidEventId i = false)
    (hr : readSection s.mem s.eventlist c i = some e) {ys : List Action}
    (h : Run DoEvent.step (BeforeReturn t) s (.call t c (.doeventwait i) :: ys) m) :
    WaitBound t e m := by
  cases h with
  | @cons _ s₁ _ _ _ hok hcall hrest =>
    have hentry : InWait s t c i e s₁ ∧ SettledInv s₁ := by
      refine ⟨?_, hs.step hok.1 hcall⟩
      have hst : DoEvent.step s (.call t c (.doeventwait i)) = some (s.goto t (.waitRead c i)) := by
        simp [DoEvent.step, ht, entry, hv]
      rw [hst] at hcall
      cases hcall
      exact .looking (by simp) rfl rfl
    have hend := hrest.invariant (fun m => InWait s t c i e m ∧ SettledInv m) hentry
      fun _ _ _ hm hx hst => ⟨hm.1.step hr hx hst, hm.2.step hx.1 hst⟩
    exact hend.1.bound hr hend.2

end

/-- A call that takes an id goes past its checks exactly when an event with that id is live
and the caller is permitted, changes nothing otherwise, and then changes that event only; a
wait does so up to its return, whatever other calls are made while it sleeps. -/
theorem id_calls_exact (mem : Addr → Event) (user : Task → UserMem) (xs : List Action) (s : State)
    (hrun : Run step SettledStep (doeventInit mem user) xs s) (hlive : s.eventlist ≠ []) (t : Task)
    (ht : s.pc t = .user) (c : Cred) (i : Int32) :
    ExactCall s t c (.doeventclose i) (MaySignal s c i) (CloseEffect s t) ∧
    ExactCall s t c (.doeventwait i) (MaySignal s c i) (WaitEffect s t) ∧
    ExactCall s t c (.doeventsig i) (MaySignal s c i) (SigEffect s t) ∧
    (∀ UID GID junk, ExactCall s t c (.doeventchown i UID GID junk) (MayChange s c i)
      fun e s' o => o = some 0 ∧
        s' = (s.modify e fun v => { v with uid := UID, gid := GID }).goto t (.ret 0)) ∧
    (∀ UIDFlag GIDFlag junk, ExactCall s t c (.doeventchmod i UIDFlag GIDFlag junk) (MayChange s c i)
      fun e s' o => o = some 0 ∧
        s' = (s.modify e fun v => { v with uidFlag := UIDFlag, gidFlag := GIDFlag }).goto t (.ret 0)) ∧
    ∀ e, MaySignal s c i e → ∀ ys m,
      Run step (BeforeReturn t) s (.call t c (.doeventwait i) :: ys) m → WaitBound t e m := by
  have hsettled := settledInv_run hrun (doeventInit_settledInv mem user)
  have hs := hsettled.seq
  have hi := hsettled.safe.ids
  have hrq := onRq_of_user hs.own ht
  have hvalid : ∀ e, e ∈ s.eventlist → (s.mem e).id = i → isValidEventId i = false :=
    fun e he hid => hid ▸ hi.valid he
  have hmiss : (¬ ∃ e, MaySignal s c i e) → readSection s.mem s.eventlist c i = none := by
    intro hno
    cases hr : readSection s.mem s.eventlist c i with
    | none => rfl
    | some e => exact absurd ⟨e, hi.readSection_iff.mp hr⟩ hno
  have hmissUser : (¬ ∃ e, MayChange s c i e) → ∀ junk,
      readSectionUser s.mem s.eventlist c i junk = none := by
    intro hno junk
    cases hr : readSectionUser s.mem s.eventlist c i junk with
    | none => rfl
    | some e => exact absurd ⟨e, (hi.readSectionUser_iff hlive junk).mp hr⟩ hno
  refine ⟨?_, ?_, ?_, ?_, ?_, ?_⟩
  · refine exactCall_of (sysDoeventclose s t c i)
      (fun _ _ => (callEnds_iff ht).trans (soloEnds_close hrq c i)) ?_ ?_
    · intro hno
      simp [sysDoeventclose, hmiss hno]
    · intro e he
      exact close_effect hs c (hvalid e he.1 he.2.1) (hi.readSection_iff.mpr he)
  · refine exactCall_of (sysDoeventwait s t c i)
      (fun _ _ => (callEnds_iff ht).trans (soloEnds_wait hrq c i)) ?_ ?_
    · intro hno
      simp [sysDoeventwait, hmiss hno]
    · intro e he
      exact wait_effect hs ht c (hvalid e he.1 he.2.1) (hi.readSection_iff.mpr he)
  · refine exactCall_of (sysDoeventsig s t c i)
      (fun _ _ => (callEnds_iff ht).trans (soloEnds_sig hrq c i)) ?_ ?_
    · intro hno
      simp [sysDoeventsig, hmiss hno]
    · intro e he
      exact sig_effect hs c (hvalid e he.1 he.2.1) (hi.readSection_iff.mpr he)
  · intro UID GID junk
    refine exactCall_of (sysDoeventchown s t c i UID GID junk)
      (fun _ _ => (callEnds_iff ht).trans (soloEnds_chown hrq c i UID GID junk)) ?_ ?_
    · intro hno
      simp [sysDoeventchown, hmissUser hno junk]
    · intro e he
      have hr := (hi.readSectionUser_iff hlive junk).mpr he
      simp [sysDoeventchown, hvalid e he.1 he.2.1, hr, returned]
  · intro UIDFlag GIDFlag junk
    refine exactCall_of (sysDoeventchmod s t c i UIDFlag GIDFlag junk)
      (fun _ _ => (callEnds_iff ht).trans (soloEnds_chmod hrq c i UIDFlag GIDFlag junk)) ?_ ?_
    · intro hno
      simp [sysDoeventchmod, hmissUser hno junk]
    · intro e he
      have hr := (hi.readSectionUser_iff hlive junk).mpr he
      simp [sysDoeventchmod, hvalid e he.1 he.2.1, hr, returned]
  · intro e he ys m hrest
    exact wait_bound hsettled ht (hvalid e he.1 he.2.1) (hi.readSection_iff.mpr he) hrest

def settledStepTest (k : Task) (s : State) (x : Action) : Bool :=
  seqStepTest k s x && noReuseTest k s x

theorem settledStep_of_test {k : Task} {s : State} {x : Action} (hi : s.idleFrom k)
    (h : settledStepTest k s x = true) : SettledStep s x := by
  obtain ⟨hseq, hreuse⟩ := Bool.and_eq_true_iff.mp h
  obtain ⟨hone, hids⟩ := seqStep_of_test hi hseq
  exact ⟨hone, noReuse_of_test hi hreuse, fun _ _ => hids⟩

def noReturnTest (t : Task) (s : State) (x : Action) : Bool :=
  match s.pc t with
  | .ret _ => x != .run t
  | _ => true

theorem noReturn_of_test {t : Task} {s : State} {x : Action} (h : noReturnTest t s x = true) :
    ∀ r, s.pc t = .ret r → x ≠ .run t := by
  intro r hpc
  simpa [noReturnTest, hpc] using h

/-- Task 2 sleeps on event 0 too, is woken when task 0 closes the event, and is about to
return. -/
def closedUnder : List Action :=
  [.call 2 ⟨6, 5⟩ (.doeventwait 0)] ++ runs 2 7 ++ [.call 0 ⟨5, 5⟩ (.doeventclose 0)] ++ runs 0 5 ++
    runs 2 4

theorem id_calls_exact_sleeper :
    ∃ s m, Run step SettledStep boot sleeperRun s ∧ s.blockedOn 1 1 ∧
      MaySignal s ⟨6, 5⟩ 0 1 ∧ ¬ MayChange s ⟨6, 5⟩ 0 1 ∧
      ExactCall s 2 ⟨6, 5⟩ (.doeventclose 0) (MaySignal s ⟨6, 5⟩ 0) (CloseEffect s 2) ∧
      Run step (BeforeReturn 2) s closedUnder m ∧ m.eventlist = [] ∧ m.pc 2 = .ret 1 ∧
      WaitBound 2 1 m := by
  obtain ⟨s, hr, hi, ht⟩ := run_of_idle_test SettledStep sleeperRun 2 (settledStepTest 2)
    (fun s => decide (s.blockedOn 1 1 ∧ s.eventlist = [1] ∧ (s.mem 1).id = 0 ∧
      (s.mem 1).attrs = (5, 5, 1, 1) ∧
      (steps step (fun s x => decide (x.task < 3) && (settledStepTest 3 s x && noReturnTest 2 s x)) s
        closedUnder).map (fun m => decide (m.eventlist = [] ∧ m.pc 2 = .ret 1)) = some true))
    (by decide) (boot_idleFrom 2) fun _ _ => settledStep_of_test
  obtain ⟨hb, hlist, hid, hattrs, hrest⟩ := of_decide_eq_true ht
  have hi₃ : s.idleFrom 3 := fun t h => hi t (Nat.le_trans (by decide) h)
  obtain ⟨m, hm, _, htest⟩ := run_of_idle_test (BeforeReturn 2) closedUnder 3 _ _ hrest hi₃
    fun s x hi h => by
      obtain ⟨hset, hret⟩ := Bool.and_eq_true_iff.mp h
      exact ⟨settledStep_of_test hi hset, noReturn_of_test hret⟩
  obtain ⟨hclosed, hret⟩ := of_decide_eq_true htest
  simp only [Event.attrs, Prod.mk.injEq] at hattrs
  have hmay : MaySignal s ⟨6, 5⟩ 0 1 := by simp [MaySignal, hlist, hid, hattrs]
  have hexact := id_calls_exact bootMem bootUser sleeperRun s hr (by simp [hlist]) 2
    (hi 2 (Nat.le_refl 2)) ⟨6, 5⟩ 0
  exact ⟨s, m, hr, hb, hmay, by simp [MayChange, hattrs], hexact.1, hm, hclosed, hret,
    hexact.2.2.2.2.2 1 hmay _ m hm⟩

/-- Task 1 sleeps on event 0. Task 0 closes it and opens another one, whose record gets the
same address, and task 1 has woken up. -/
def strayWait : List Action :=
  [.call 1 rootCred (.doeventwait 0)] ++ runs 1 7 ++ [.call 0 rootCred (.doeventclose 0)] ++
    runs 0 5 ++ opens 0 rootCred 1 ++ runs 1 1

/-- A wait that was called for event 0 puts its task on the queue of event 2. -/
theorem wait_changes_other_event :
    ¬ ∀ mem user xs s, Run step SeqStep (doeventInit mem user) xs s → s.eventlist ≠ [] →
      ∀ t c i e, s.pc t = .user → MaySignal s c i e →
      ∀ ys m, Run step (fun m x => SeqStep m x ∧ ∀ r, m.pc t = .ret r → x ≠ .run t) s
        (.call t c (.doeventwait i) :: ys) m →
      ∀ m', step m (.run t) = some m' → ∀ b ∈ m.eventlist, (m.mem b).id ≠ i → m'.mem b = m.mem b := by
  intro hclaim
  obtain ⟨s, hr, hi, ht⟩ := run_of_idle_test SeqStep (opens 0 rootCred 1 ++ opens 0 rootCred 2) 2
    (seqStepTest 2)
    (fun s => decide (s.eventlist ≠ [] ∧ s.pc 1 = .user ∧ MaySignal s rootCred 0 1 ∧
      (steps step (fun s x => decide (x.task < 2) &&
        (seqStepTest 2 s x && noReturnTest 1 s x)) s strayWait).map
        (fun m => decide (1 ∈ m.eventlist ∧ (m.mem 1).id = 2 ∧ (m.mem 1).queue = [] ∧
          (step m (.run 1)).map (fun m' => (m'.mem 1).queue) = some [1])) = some true))
    (by decide) (boot_idleFrom 2) fun _ _ => seqStep_of_test
  obtain ⟨hlive, hpc, hmay, hrest⟩ := of_decide_eq_true ht
  obtain ⟨m, hm, _, htest⟩ := run_of_idle_test
    (fun m x => SeqStep m x ∧ ∀ r, m.pc 1 = .ret r → x ≠ .run 1) strayWait 2 _ _ hrest hi
    fun s x hi h => by
      obtain ⟨hseq, hret⟩ := Bool.and_eq_true_iff.mp h
      exact ⟨seqStep_of_test hi hseq, noReturn_of_test hret⟩
  obtain ⟨hlisted, hid, hempty, hstep⟩ := of_decide_eq_true htest
  obtain ⟨m', hm', hqueue⟩ := Option.map_eq_some_iff.mp hstep
  have hsame := hclaim bootMem bootUser _ s hr hlive 1 rootCred 0 1 hpc hmay _ m hm m' hm' 1 hlisted
    (by rw [hid]; decide)
  rw [hsame, hempty] at hqueue
  cases hqueue

end DoEvent
