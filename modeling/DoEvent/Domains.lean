import DoEvent.Confinement
import DoEvent.Owners

/-!
# The domain of owners and enable bits

An owner is meant to be a non-negative number and a flag an enable bit, 0 or 1. Neither
chown nor chmod sees to it: `UID < 0` compares unsigned numbers, and the flags of chmod are
stored as they come. As long as the calls that pass the permission check bring values of
the domain, in any interleaving, all stored values belong to it.
-/

namespace DoEvent

open Transition

/-- Non-negative when read as a signed `int`. -/
def IsOwner (x : UInt32) : Prop := 0 ≤ x.toInt32

def IsEnableBit (f : Int32) : Prop := f = 0 ∨ f = 1

structure StatVals.InDomain (v : StatVals) : Prop where
  uid : IsOwner v.uid
  gid : IsOwner v.gid
  uidFlag : IsEnableBit v.uidFlag
  gidFlag : IsEnableBit v.gidFlag

/-- The values that a call would store belong to the domain. -/
def Call.InDomain : Call → Prop
  | .doeventchown _ UID GID _ => IsOwner UID ∧ IsOwner GID
  | .doeventchmod _ UIDFlag GIDFlag _ => IsEnableBit UIDFlag ∧ IsEnableBit GIDFlag
  | _ => True

def Cred.Small (c : Cred) : Prop := c.euid.toNat < 2147483648 ∧ c.egid.toNat < 2147483648

/-- If the read section of a chown or chmod lets the call pass, its values belong to the
domain. -/
def PassesInDomain (s : State) : Pc → Prop
  | .chownRead c i UID GID junk =>
    readSectionUser s.mem s.eventlist c i junk ≠ none → IsOwner UID ∧ IsOwner GID
  | .chmodRead c i UIDFlag GIDFlag junk =>
    readSectionUser s.mem s.eventlist c i junk ≠ none → IsEnableBit UIDFlag ∧ IsEnableBit GIDFlag
  | _ => True

def SmallCallers (_ : State) (x : Action) : Prop := ∀ t c k, x = .call t c k → c.Small

/-- Besides small ids of the callers: the arguments of a call are arbitrary, but values out
of the domain do not pass the permission check. -/
def DomainStep (s : State) (x : Action) : Prop :=
  SmallCallers s x ∧ ∀ t, x = .run t → PassesInDomain s (s.pc t)

theorem isOwner_of_lt {x : UInt32} (h : x.toNat < 2147483648) : IsOwner x := by
  have hx : x.toInt32.toInt = x.toNat := by
    show x.toBitVec.toInt = x.toBitVec.toNat
    exact BitVec.toInt_eq_toNat_of_lt (show 2 * x.toNat < 4294967296 by omega)
  rw [IsOwner, Int32.le_iff_toInt_le, hx]
  exact Int.natCast_nonneg _

/-! ### The call a task is in -/

/-- How the program counter of a task goes with the call it is in, as far as the domain is
concerned: a call with other values is still in its read section. -/
def InCall (a : Option (Cred × Call)) : Pc → Prop
  | .user | .ret _ => a = none
  | .chownRead c i UID GID junk => a = some (c, .doeventchown i UID GID junk)
  | .chmodRead c i UIDFlag GIDFlag junk => a = some (c, .doeventchmod i UIDFlag GIDFlag junk)
  | .chownWrite _ _ UID GID => (∃ b, a = some b ∧ b.2.InDomain) ∧ IsOwner UID ∧ IsOwner GID
  | .chmodWrite _ _ UIDFlag GIDFlag =>
    (∃ b, a = some b ∧ b.2.InDomain) ∧ IsEnableBit UIDFlag ∧ IsEnableBit GIDFlag
  | _ => ∃ b, a = some b ∧ b.2.InDomain

theorem inCall_entry (c : Cred) (k : Call) :
    InCall ((decides .user (entry c k)).elim (some (c, k)) fun _ => none) (entry c k) := by
  cases k <;> simp only [entry] <;> (try split) <;> simp [decides, InCall, Call.InDomain]

/-- A step inside a call: it leads on, or to a return statement, which for values out of the
domain is that of -1. -/
theorem InCall.flow {s : State} {t : Task} {a : Option (Cred × Call)} {q p : Pc} {e : Effect}
    (h : InCall a q) (hf : Flow s t q e p) (hq : PassesInDomain s q) :
    InCall ((decides q p).elim a fun _ => none) p ∧
      ∀ r, decides q p = some r → ∃ b, a = some b ∧ (¬ b.2.InDomain → r = -1) := by
  cases hf with
  | ret r => exact ⟨h, fun r hr => by cases hr⟩
  | chownMiss c i U G junk hmiss | chmodMiss c i uf gf junk hmiss =>
    refine ⟨rfl, fun r hr => ⟨_, h, fun _ => ?_⟩⟩
    cases hr
    rfl
  | chownFound c i U G junk b hfound | chmodFound c i uf gf junk b hfound =>
    have hdom := hq (by rw [hfound]; simp)
    exact ⟨⟨⟨_, h, hdom⟩, hdom⟩, fun r hr => by cases hr⟩
  | chownWrite c b U G | chmodWrite c b uf gf =>
    obtain ⟨⟨a, ha, hdom⟩, _⟩ := h
    exact ⟨rfl, fun r hr => ⟨a, ha, fun hn => absurd hdom hn⟩⟩
  | closeMiss | closeKfree | waitMiss | waitPast | waitFinish | sigMiss | sigIdle | sigWake
  | infoFault | infoCopy | statFault | statMiss | statCopy | openRet =>
    obtain ⟨a, ha, hdom⟩ := h
    exact ⟨rfl, fun r hr => ⟨a, ha, fun hn => absurd hdom hn⟩⟩
  | _ => exact ⟨h, fun r hr => by cases hr⟩

theorem InCall.move {s : State} {x : Action} {e : Effect} {p : Pc} {h : OutcomeHistory}
    (hc : InCall (underway h x.task) (s.pc x.task)) (hm : Move s x e p) (hx : DomainStep s x) :
    InCall (underway (h ++ outcomeEvents s x) x.task) p ∧
      ∀ r, decides (s.pc x.task) p = some r →
        ∃ b, underway (h ++ entered x) x.task = some b ∧ (¬ b.2.InDomain → r = -1) := by
  rw [underway_self hm, underway_entered]
  cases hm with
  | call t c k hpc =>
    simp only [Action.task, hpc, if_true]
    refine ⟨inCall_entry c k, fun r hr => ⟨(c, k), rfl, fun _ => ?_⟩⟩
    have hret : entry c k = .ret r := by
      revert hr
      cases entry c k <;> simp [decides]
    exact entry_ret hret
  | nomem t c hpc =>
    simp only [Action.task, hpc] at hc ⊢
    obtain ⟨b, hb, hdom⟩ := hc
    exact ⟨rfl, fun r hr => ⟨b, hb, fun hn => absurd hdom hn⟩⟩
  | kmalloc t c a hpc hfree =>
    simp only [Action.task, hpc] at hc ⊢
    exact ⟨hc, fun r hr => by cases hr⟩
  | posix t | deliver t hpc =>
    simp only [Action.task, decides_self] at hc ⊢
    exact ⟨hc, fun r hr => by cases hr⟩
  | run t e p hrq hnext => exact hc.flow (Flow.of_next hnext) (hx.2 t rfl)

/-- A call with values out of the domain never leaves its read section but to fail. -/
theorem InCall.reading {a : Cred × Call} {q : Pc} (h : InCall (some a) q) (ha : ¬ a.2.InDomain) :
    (∃ c i UID GID junk, q = .chownRead c i UID GID junk) ∨
      ∃ c i UIDFlag GIDFlag junk, q = .chmodRead c i UIDFlag GIDFlag junk := by
  have hdom : (∃ b, some a = some b ∧ b.2.InDomain) → False := by
    rintro ⟨b, hb, hdom⟩
    cases hb
    exact ha hdom
  cases q with
  | user | ret r => cases h
  | chownRead c i U G junk => exact .inl ⟨c, i, U, G, junk, rfl⟩
  | chmodRead c i uf gf junk => exact .inr ⟨c, i, uf, gf, junk, rfl⟩
  | chownWrite c b U G | chmodWrite c b uf gf => exact (hdom h.1).elim
  | _ => exact (hdom h).elim

/-! ### The stored values -/

structure DomainInv (h : OutcomeHistory) (s : State) : Prop where
  creds : CredsIn Cred.Small s
  calls : ∀ t, InCall (underway h t) (s.pc t)
  events : ∀ a ∈ s.eventlist, (s.mem a).vals.InDomain
  returns : ∀ o ∈ operations h, ¬ o.input.2.InDomain → o.output = -1

theorem doeventInit_domainInv (mem : Addr → Event) (user : Task → UserMem) :
    DomainInv [] (doeventInit mem user) where
  creds := fun _ _ h => by cases h
  calls := fun _ => rfl
  events := fun _ h => by cases h
  returns := fun _ h => by cases h

theorem DomainInv.events_move {h : OutcomeHistory} {s : State} {x : Action} {e : Effect} {p : Pc}
    (hi : DomainInv h s) (hm : Move s x e p) {a : Addr} (ha : a ∈ (apply s x.task e).eventlist) :
    ((apply s x.task e).mem a).vals.InDomain := by
  have ho := hm.origin
  have hcall := hi.calls x.task
  rw [apply_vals]
  rw [apply_eventlist] at ha
  cases e with
  | openSection c b =>
    have hc : c.Small := hi.creds x.task c (by rw [ho.1]; rfl)
    dsimp only at ha ⊢
    split
    next => exact ⟨isOwner_of_lt hc.1, isOwner_of_lt hc.2, .inr rfl, .inr rfl⟩
    next hne => exact hi.events a (by simpa [hne] using ha)
  | setOwner b U G =>
    obtain ⟨c, hpc, _⟩ := ho
    rw [hpc] at hcall
    dsimp only at ha ⊢
    split
    next hab =>
      have hb := hi.events b (hab ▸ ha)
      exact ⟨hcall.2.1, hcall.2.2, hb.uidFlag, hb.gidFlag⟩
    next => exact hi.events a ha
  | setFlags b uf gf =>
    obtain ⟨c, hpc, _⟩ := ho
    rw [hpc] at hcall
    dsimp only at ha ⊢
    split
    next hab =>
      have hb := hi.events b (hab ▸ ha)
      exact ⟨hb.uid, hb.gid, hcall.2.1, hcall.2.2⟩
    next => exact hi.events a ha
  | closeSection b process => exact hi.events a (List.mem_of_mem_erase ha)
  | _ => exact hi.events a ha

theorem DomainInv.step {h : OutcomeHistory} {s s' : State} {x : Action} (hi : DomainInv h s)
    (hx : DomainStep s x) (hstep : step s x = some s') :
    DomainInv (h ++ outcomeEvents s x) s' := by
  have hcreds := hi.creds.step hx.1 hstep
  obtain ⟨e, p, hm, rfl⟩ := step_eq_some.mp hstep
  obtain ⟨hself, hret⟩ := (hi.calls x.task).move hm hx
  refine ⟨hcreds, fun u => ?_, fun a ha => hi.events_move hm ha, ?_⟩
  · by_cases hu : u = x.task
    · subst hu
      rw [goto_pc, Function.update_self]
      exact hself
    · rw [underway_of_ne hm hu, goto_pc, Function.update_of_ne hu, apply_pc]
      exact hi.calls u
  · rw [outcomeEvents_of_move hm, ← List.append_assoc]
    cases hr : decides (s.pc x.task) p with
    | none =>
      rw [Option.elim_none, List.append_nil, operations_entered]
      exact hi.returns
    | some r =>
      obtain ⟨b, hb, hfail⟩ := hret r hr
      obtain ⟨j, n, hops⟩ := operations_decided (r := r) hb
      rw [Option.elim_some, hops, operations_entered]
      intro o ho
      rcases List.mem_append.mp ho with ho | ho
      · exact hi.returns o ho
      · rw [List.mem_singleton.mp ho]
        exact hfail

theorem domainInv_run {mem : Addr → Event} {user : Task → UserMem} {xs : List Action} {s : State}
    (h : Run step DomainStep (doeventInit mem user) xs s) :
    DomainInv (observe step outcomeEvents (doeventInit mem user) xs) s :=
  h.observed outcomeEvents DomainInv (doeventInit_domainInv mem user)
    fun _ _ _ _ hi hx hstep => hi.step hx hstep

/-! ### What callers see -/

/-- Under an enable bit a flag that is not 0 gives the access it stands for. -/
theorem validateEvent_of_enabled {v : Event} (hv : v.vals.InDomain) {c : Cred}
    (h : (v.uidFlag ≠ 0 ∧ c.euid = v.uid) ∨ (v.gidFlag ≠ 0 ∧ c.egid = v.gid)) :
    validateEvent c true (some v) = true := by
  rcases h with ⟨hf, hc⟩ | ⟨hf, hc⟩
  · have h1 : v.uidFlag = 1 := hv.uidFlag.resolve_left hf
    simp [validateEvent, hc, h1]
  · have h1 : v.gidFlag = 1 := hv.gidFlag.resolve_left hf
    simp [validateEvent, hc, h1]

theorem DomainInv.rejected {h : OutcomeHistory} {s s' : State} {x : Action} (hi : DomainInv h s)
    {a : Cred × Call} (ha : underway h x.task = some a) (hn : ¬ a.2.InDomain)
    (hstep : DoEvent.step s x = some s') : s'.mem = s.mem ∧ s'.eventlist = s.eventlist := by
  have hcall := hi.calls x.task
  rw [ha] at hcall
  obtain ⟨e, p, hm, rfl⟩ := step_eq_some.mp hstep
  rcases hcall.reading hn with ⟨c, i, U, G, junk, hpc⟩ | ⟨c, i, uf, gf, junk, hpc⟩
  all_goals
    cases hm with
    | call t c' k hpc' | nomem t c' hpc' | kmalloc t c' b hpc' hfree | deliver t hpc' =>
      rw [Action.task, hpc'] at hpc
      cases hpc
    | posix t => exact ⟨rfl, rfl⟩
    | run t e p hrq hnext =>
      rw [Action.task] at hpc
      rw [hpc] at hnext
      cases hnext
      exact ⟨rfl, rfl⟩

/-- What stat has read, in the step that leaves its loop with an event. -/
theorem stat_read {s s' : State} {t : Task} {i : Int32} {q : StatPtrs} {v w : StatVals}
    {junk : Option Addr} (hpc : s.pc t = .statRead i q v junk) (hne : s.eventlist ≠ [])
    (hstep : step s (.run t) = some s') (hpc' : s'.pc t = .statCopy q w) :
    ∃ a ∈ s.eventlist, (s.mem a).id = i ∧ w = (s.mem a).vals := by
  obtain ⟨e, p, hm, rfl⟩ := step_eq_some.mp hstep
  rw [Action.task, goto_pc, Function.update_self] at hpc'
  cases hm with
  | run t e p hrq hnext =>
    have hf := Flow.of_next hnext
    rw [hpc] at hf
    subst hpc'
    cases hf with
    | statFound i q v junk a hfound =>
      rw [statLoop_fst, searchLoop_junk _ _ _ hne] at hfound
      obtain ⟨hmem, hid⟩ := searchLoop_some hfound
      exact ⟨a, hmem, hid, by rw [statLoop_found hfound]⟩

/-- In every run in which no chown or chmod passes the permission check with values out of
the domain, every live event keeps to the domain; a call with other values changes no event
in any of its steps and returns -1; and a flag that stat has read and that is not 0 gives
its owner, or its group, the access in `validateEvent`. -/
theorem owners_and_flags_in_domain (mem : Addr → Event) (user : Task → UserMem) (xs : List Action)
    (s : State) (hrun : Run step DomainStep (doeventInit mem user) xs s) :
    (∀ a ∈ s.eventlist, (s.mem a).vals.InDomain) ∧
    (∀ o ∈ operations (observe step outcomeEvents (doeventInit mem user) xs),
      ¬ o.input.2.InDomain → o.output = -1) ∧
    (∀ x a s', underway (observe step outcomeEvents (doeventInit mem user) xs) x.task = some a →
      ¬ a.2.InDomain → step s x = some s' → s'.mem = s.mem ∧ s'.eventlist = s.eventlist) ∧
    ∀ t i q v junk w s', s.pc t = .statRead i q v junk → s.eventlist ≠ [] →
      step s (.run t) = some s' → s'.pc t = .statCopy q w →
      ∃ a ∈ s.eventlist, (s.mem a).id = i ∧ w = (s.mem a).vals ∧
        ∀ c, (w.uidFlag ≠ 0 ∧ c.euid = w.uid) ∨ (w.gidFlag ≠ 0 ∧ c.egid = w.gid) →
          validateEvent c true (some (s.mem a)) = true := by
  have hi := domainInv_run hrun
  refine ⟨hi.events, hi.returns, fun x a s' ha hn hstep => hi.rejected ha hn hstep, ?_⟩
  intro t i q v junk w s' hpc hne hstep hpc'
  obtain ⟨a, ha, hid, rfl⟩ := stat_read hpc hne hstep hpc'
  exact ⟨a, ha, hid, rfl, fun c hc => validateEvent_of_enabled (hi.events a ha) hc⟩

def domainTest (s : State) : Action → Bool
  | .call _ c _ => decide (c.euid.toNat < 2147483648) && decide (c.egid.toNat < 2147483648)
  | .run t =>
    match s.pc t with
    | .chownRead c i UID GID junk => readSectionUser s.mem s.eventlist c i junk == none ||
        decide (0 ≤ UID.toInt32) && decide (0 ≤ GID.toInt32)
    | .chmodRead c i UIDFlag GIDFlag junk => readSectionUser s.mem s.eventlist c i junk == none ||
        decide (UIDFlag = 0 ∨ UIDFlag = 1) && decide (GIDFlag = 0 ∨ GIDFlag = 1)
    | _ => true
  | _ => true

theorem domainStep_of_test {s : State} {x : Action} (h : domainTest s x = true) : DomainStep s x := by
  constructor
  · rintro t c k rfl
    simpa [domainTest, Cred.Small] using h
  · rintro t rfl
    rw [domainTest] at h
    generalize s.pc t = q at h
    cases q with
    | chownRead c i U G junk | chmodRead c i uf gf junk =>
      rw [Bool.or_eq_true, beq_iff_eq, Bool.and_eq_true, decide_eq_true_eq, decide_eq_true_eq] at h
      exact fun hn => h.resolve_left hn
    | _ => trivial

/-- User 7 may not give away an event of user 5, whatever the owner; user 5 clears a flag. -/
def refusedAndChanged : List Action :=
  opens 0 ⟨5, 5⟩ 1 ++ [.call 1 ⟨7, 7⟩ (.doeventchown 0 2147483648 7 none)] ++ runs 1 2 ++
    [.call 1 ⟨5, 5⟩ (.doeventchmod 0 0 1 none)] ++ runs 1 3

theorem owners_and_flags_in_domain_refused :
    ∃ s, Run step DomainStep boot refusedAndChanged s ∧
      s.eventlist = [1] ∧ (s.mem 1).vals = ⟨5, 5, 0, 1⟩ ∧ (s.mem 1).vals.InDomain := by
  obtain ⟨s, hr, hi, ht⟩ := run_of_idle_test DomainStep refusedAndChanged 2 domainTest
    (fun s => decide (s.eventlist = [1] ∧ (s.mem 1).vals = ⟨5, 5, 0, 1⟩))
    (by decide) (boot_idleFrom 2) fun s x _ h => domainStep_of_test h
  obtain ⟨hlist, hvals⟩ := of_decide_eq_true ht
  have hdom := (owners_and_flags_in_domain bootMem bootUser refusedAndChanged s hr).1
  exact ⟨s, hr, hlist, hvals, hdom 1 (by simp [hlist])⟩

def smallTest (_ : State) : Action → Bool
  | .call _ c _ => decide (c.euid.toNat < 2147483648) && decide (c.egid.toNat < 2147483648)
  | _ => true

/-- User 5 opens an event, sets both flags to 2, asks for the flag and signals the event;
then user 5 gives the event to the owner -2147483648. -/
def outOfDomain : List Action :=
  opens 0 ⟨5, 5⟩ 1 ++ [.call 0 ⟨5, 5⟩ (.doeventchmod 0 2 2 none)] ++ runs 0 3 ++
    [.call 0 ⟨5, 5⟩ (.doeventstat 0 ⟨none, none, some 16, none⟩ none)] ++ runs 0 4 ++
    [.call 0 ⟨5, 5⟩ (.doeventsig 0)] ++ runs 0 2 ++
    [.call 0 ⟨5, 5⟩ (.doeventchown 0 2147483648 5 none)] ++ runs 0 3

/-- Chmod and chown return 0, stat reports the flag 2, and still the owner may not signal. -/
theorem chown_and_chmod_leave_domain :
    ∃ s, Run step SmallCallers boot outOfDomain s ∧
      (operations (observe step outcomeEvents boot outOfDomain)).map (fun o => (o.input.2, o.output)) =
        [(.doeventopen, 0), (.doeventchmod 0 2 2 none, 0),
          (.doeventstat 0 ⟨none, none, some 16, none⟩ none, 0), (.doeventsig 0, -1),
          (.doeventchown 0 2147483648 5 none, 0)] ∧
      wordAt (s.user 0) 16 = 2 ∧ s.eventlist = [1] ∧ (s.mem 1).vals = ⟨2147483648, 5, 2, 2⟩ ∧
      ¬ IsOwner (s.mem 1).uid ∧ ¬ IsEnableBit (s.mem 1).uidFlag := by
  obtain ⟨s, hr, hi, ht⟩ := run_of_idle_test SmallCallers outOfDomain 1
    smallTest (fun s => decide (wordAt (s.user 0) 16 = 2 ∧ s.eventlist = [1] ∧
      (s.mem 1).vals = ⟨2147483648, 5, 2, 2⟩))
    (by decide) (boot_idleFrom 1) fun s x _ h => by
      rintro t c k rfl
      simpa [smallTest, Cred.Small] using h
  obtain ⟨hword, hlist, hvals⟩ := of_decide_eq_true ht
  have huid : (s.mem 1).uid = 2147483648 := congrArg StatVals.uid hvals
  have hflag : (s.mem 1).uidFlag = 2 := congrArg StatVals.uidFlag hvals
  refine ⟨s, hr, by decide, hword, hlist, hvals, ?_, ?_⟩
  · rw [huid, IsOwner]
    decide
  · rw [hflag, IsEnableBit]
    decide

end DoEvent
