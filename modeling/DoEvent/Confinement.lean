import DoEvent.Effects

/-!
# Ownership confinement

Callers that are neither root nor the owner of an event cannot change its owner, group or
flags, whatever they do to other events, and without the group permission they cannot
close it, signal it or disturb its waiters either. The credentials of a call are fixed when
it is entered and travel with the program counter.
-/

namespace DoEvent

open Transition

def Pc.cred : Pc → Option Cred
  | .openAlloc c | .openWrite c _ | .closeRead c _ | .waitRead c _ | .sigRead c _
  | .chownRead c _ _ _ _ | .chownWrite c _ _ _ | .chmodRead c _ _ _ _ | .chmodWrite c _ _ _ => some c
  | _ => none

/-- Every call under way was entered with credentials in `P`. -/
def CredsIn (P : Cred → Prop) (s : State) : Prop := ∀ t c, (s.pc t).cred = some c → P c

/-- One call at a time, made by callers in `P`. -/
def Confined (P : Cred → Prop) (s : State) (x : Action) : Prop :=
  OneAtATime s x ∧ ∀ t c k, x = .call t c k → P c

theorem entry_cred {c c' : Cred} {k : Call} (h : (entry c k).cred = some c') : c' = c := by
  cases k <;> simp only [entry] at h <;> (try split at h) <;> cases h <;> rfl

theorem Move.cred {s : State} {x : Action} {e : Effect} {p : Pc} {c : Cred} (hm : Move s x e p)
    (hp : p.cred = some c) : (s.pc x.task).cred = some c ∨ ∃ t k, x = .call t c k := by
  cases hm with
  | call t c' k hpc =>
    cases entry_cred hp
    exact .inr ⟨t, k, rfl⟩
  | nomem t c' hpc => cases hp
  | kmalloc t c' a hpc hfree =>
    simp only [Action.task, hpc]
    exact .inl hp
  | posix t | deliver t hpc => exact .inl hp
  | run t e p hrq hnext =>
    have hf := Flow.of_next hnext
    simp only [Action.task]
    generalize hpc : s.pc t = q at hf
    cases hf <;> first | exact .inl hp | cases hp

theorem CredsIn.step {P : Cred → Prop} {s s' : State} {x : Action} (hi : CredsIn P s)
    (hx : ∀ t c k, x = .call t c k → P c) (h : step s x = some s') : CredsIn P s' := by
  obtain ⟨e, p, hm, rfl⟩ := step_eq_some.mp h
  intro u c hc
  by_cases hu : u = x.task
  · subst hu
    rcases hm.cred (by simpa using hc) with hc | ⟨t, k, hk⟩
    · exact hi _ c hc
    · exact hx t c k hk
  · exact hi u c (by simpa [hu] using hc)

theorem credsIn_of_quiet {s : State} (h : s.quiet) (P : Cred → Prop) :
    CredsIn P s := by
  intro t c hc
  have ht := h t
  cases hpc : s.pc t <;> rw [hpc] at ht hc <;> first | (cases ht; done) | cases hc

/-! ### Owner and flags -/

def Outsider (u : UInt32) (c : Cred) : Prop := c.euid ≠ 0 ∧ c.euid ≠ u

/-- The event at `e` is live and as in the record `v`, and nobody is about to change it. -/
structure Guarded (v : Event) (e : Addr) (s : State) : Prop where
  inv : SeqInv s
  creds : CredsIn (Outsider v.uid) s
  listed : e ∈ s.eventlist
  attrs : (s.mem e).attrs = v.attrs
  unchanging : ∀ t, ¬ s.holds t .changing e

theorem Outsider.refused {v w : Event} {c : Cred} (h : Outsider v.uid c) (hw : w.attrs = v.attrs) :
    validateUserEvent c (some w) = false := by
  have huid : w.uid = v.uid := congrArg Prod.fst hw
  simp [validateUserEvent, h.1, huid, h.2]

theorem Guarded.not_changing {v : Event} {e : Addr} {s s' : State} {x : Action}
    (hi : Guarded v e s) (h : step s x = some s') (t : Task) : ¬ s'.holds t .changing e := by
  obtain ⟨f, p, hm, rfl⟩ := step_eq_some.mp h
  intro ht
  rcases hm.holds ht with ht | ⟨_, u, c, i, U, G, uf, gf, junk, _, hpc, hr⟩
  · exact hi.unchanging t ht
  · have hcred : (s.pc u).cred = some c := by rcases hpc with hpc | hpc <;> rw [hpc] <;> rfl
    have hv := (readSectionUser_some (List.ne_nil_of_mem hi.listed) hr).2.2
    rw [(hi.creds u c hcred).refused hi.attrs] at hv
    cases hv

theorem Guarded.attrs_step {v : Event} {e : Addr} {s s' : State} {x : Action}
    (hi : Guarded v e s) (h : step s x = some s') : (s'.mem e).attrs = v.attrs := by
  obtain ⟨f, p, hm, rfl⟩ := step_eq_some.mp h
  have ho := hm.origin
  rw [goto_mem, apply_attrs]
  cases f with
  | openSection c a =>
    have hae : e ≠ a := by
      intro hea
      have hown := hi.inv.list.owned x.task a (.inl (holds_of_pc ho.1 rfl))
      exact hown.2.1 (hea ▸ hi.listed)
    simpa [hae] using hi.attrs
  | setOwner a U G =>
    obtain ⟨c, hpc, _⟩ := ho
    have hae : e ≠ a := by
      intro hea
      exact hi.unchanging x.task (by rw [State.holds, hpc, hea]; rfl)
    simpa [hae] using hi.attrs
  | setFlags a U G =>
    obtain ⟨c, hpc, _⟩ := ho
    have hae : e ≠ a := by
      intro hea
      exact hi.unchanging x.task (by rw [State.holds, hpc, hea]; rfl)
    simpa [hae] using hi.attrs
  | _ => exact hi.attrs

theorem Guarded.step {v : Event} {e : Addr} {s s' : State} {x : Action} (hi : Guarded v e s)
    (hx : Confined (Outsider v.uid) s x) (h : step s x = some s') :
    Guarded v e s' ∨ Unlinks s x e := by
  rcases listed_step hi.inv.list hi.listed h with ⟨hlisted, _⟩ | hu
  · exact .inl ⟨hi.inv.step hx.1 h, hi.creds.step hx.2 h, hlisted, hi.attrs_step h,
      hi.not_changing h⟩
  · exact .inr hu

/-- At the end of the run `ys` from `s` the event at `e` is live with the owner, group and
flags it had, or a close has unlinked it on the way. -/
def KeptWhileLive (ok : State → Action → Prop) (e : Addr) (s : State) (ys : List Action)
    (m : State) : Prop :=
  (e ∈ m.eventlist ∧ (m.mem e).attrs = (s.mem e).attrs) ∨
  ∃ ys₁ x ys₂ n, ys = ys₁ ++ x :: ys₂ ∧ Run step ok s ys₁ n ∧ Unlinks n x e

theorem guarded_run {P : Cred → Prop} {s m : State} {e : Addr} {ys : List Action} (hs : SeqInv s)
    (hquiet : s.quiet) (he : e ∈ s.eventlist) (hP : ∀ c, P c → Outsider (s.mem e).uid c)
    (h : Run step (Confined P) s ys m) : KeptWhileLive (Confined P) e s ys m := by
  have hstart : Guarded (s.mem e) e s :=
    ⟨hs, credsIn_of_quiet hquiet _, he, rfl, fun t => no_hold_of_quiet hquiet (by simp)⟩
  have hkeep := h.keep_or (Guarded (s.mem e) e) (fun n x => Unlinks n x e) hstart
    fun _ _ _ hi hx hstep => hi.step ⟨hx.1, fun t c k hk => hP c (hx.2 t c k hk)⟩ hstep
  exact hkeep.imp_left fun hg => ⟨hg.listed, hg.attrs⟩

/-! ### Waiters -/

/-- Neither root nor the owner of `v`, and not permitted through the group either. -/
def Powerless (v : Event) (c : Cred) : Prop :=
  Outsider v.uid c ∧ (v.gidFlag ≠ 1 ∨ c.egid ≠ v.gid)

theorem Powerless.refused {v w : Event} {c : Cred} (h : Powerless v c) (hw : w.attrs = v.attrs) :
    validateEvent c true (some w) = false := by
  simp only [Event.attrs, Prod.mk.injEq] at hw
  obtain ⟨huid, hgid, _, hflag⟩ := hw
  simp only [validateEvent, if_true, huid, hgid, hflag]
  rcases h.2 with hf | hg
  · simp [h.1.1, h.1.2, hf]
  · simp [h.1.1, h.1.2, hg]

/-- Besides, nobody has the event in hand to close it, to signal it or to start a wait. -/
structure Shielded (v : Event) (e : Addr) (s : State) : Prop where
  guarded : Guarded v e s
  creds : CredsIn (Powerless v) s
  condition : (s.mem e).condition = v.condition
  unlinking : ∀ t, ¬ s.holds t .unlinking e
  signalling : ∀ t, ¬ s.holds t .signalling e
  noReset : ∀ t, s.pc t ≠ .waitReset e

theorem Shielded.refused {v : Event} {e : Addr} {s : State} (hi : Shielded v e s) {t : Task} {c : Cred}
    {i : Int32} (hc : (s.pc t).cred = some c) : readSection s.mem s.eventlist c i ≠ some e := by
  intro hr
  have hv := (readSection_some hr).2.2
  rw [(hi.creds t c hc).refused hi.guarded.attrs] at hv
  cases hv

theorem Shielded.not_held {v : Event} {e : Addr} {s s' : State} {x : Action} (hi : Shielded v e s)
    (h : step s x = some s') (t : Task) :
    ¬ s'.holds t .unlinking e ∧ ¬ s'.holds t .signalling e ∧ s'.pc t ≠ .waitReset e := by
  obtain ⟨f, p, hm, rfl⟩ := step_eq_some.mp h
  refine ⟨?_, ?_, ?_⟩
  · intro ht
    rcases hm.holds ht with ht | ⟨_, u, c, i, _, hpc, hr⟩
    · exact hi.unlinking t ht
    · exact hi.refused (by rw [hpc]; rfl) hr
  · intro ht
    rcases hm.holds ht with ht | ⟨_, u, c, i, _, hpc, hr⟩
    · exact hi.signalling t ht
    · exact hi.refused (by rw [hpc]; rfl) hr
  · intro ht
    by_cases htx : t = x.task
    · subst htx
      rcases hm.waitReset (by simpa using ht) with h | ⟨u, c, i, _, hpc, hr⟩
      · exact hi.noReset _ h
      · exact hi.refused (by rw [hpc]; rfl) hr
    · exact hi.noReset t (by simpa [htx] using ht)

theorem Shielded.condition_step {v : Event} {e : Addr} {s s' : State} {x : Action}
    (hi : Shielded v e s) (h : step s x = some s') : (s'.mem e).condition = v.condition := by
  obtain ⟨f, p, hm, rfl⟩ := step_eq_some.mp h
  have ho := hm.origin
  rw [goto_mem, apply_condition]
  cases f with
  | openSection c a =>
    have hae : e ≠ a := by
      intro hea
      have hown := hi.guarded.inv.list.owned x.task a (.inl (holds_of_pc ho.1 rfl))
      exact hown.2.1 (hea ▸ hi.guarded.listed)
    simpa [hae] using hi.condition
  | setCondition a w =>
    have hae : e ≠ a := by
      intro hea
      rcases ho with ⟨_, hpc, _⟩ | ⟨_, hpc, _⟩
      · exact hi.noReset x.task (by rw [hpc, hea])
      · exact hi.signalling x.task (by rw [State.holds, hpc, hea]; rfl)
    simpa [hae] using hi.condition
  | closeSection a process =>
    have hae : e ≠ a := by
      intro hea
      exact hi.unlinking x.task (by rw [State.holds, ho.1, hea]; rfl)
    simpa [hae] using hi.condition
  | _ => exact hi.condition

theorem Shielded.step {v : Event} {e : Addr} {s s' : State} {x : Action} (hi : Shielded v e s)
    (hx : Confined (Powerless v) s x) (h : DoEvent.step s x = some s') : Shielded v e s' := by
  have hout : Confined (Outsider v.uid) s x := ⟨hx.1, fun t c k hk => (hx.2 t c k hk).1⟩
  have hheld := hi.not_held h
  rcases hi.guarded.step hout h with hg | ⟨t, process, rfl, hpc⟩
  · exact ⟨hg, hi.creds.step hx.2 h, hi.condition_step h, fun t => (hheld t).1,
      fun t => (hheld t).2.1, fun t => (hheld t).2.2⟩
  · exact absurd (holds_of_pc hpc rfl) (hi.unlinking t)

/-- A task asleep on the event stays asleep, unless a POSIX signal comes for it. -/
theorem Shielded.stays_blocked {v : Event} {e : Addr} {s s' : State} {x : Action}
    (hi : Shielded v e s) (h : DoEvent.step s x = some s') {t : Task} (hb : s.blockedOn t e)
    (hx : x ≠ .posix t) : s'.blockedOn t e := by
  obtain ⟨hpc, hs, hoff⟩ := hb
  obtain ⟨f, p, hm, rfl⟩ := step_eq_some.mp h
  have htx : t ≠ x.task := by
    rintro rfl
    cases hm with
    | call t c k hu | deliver t hu =>
      rw [Action.task, hu] at hpc
      cases hpc
    | nomem t c hu | kmalloc t c a hu hfree =>
      rw [Action.task, hu] at hpc
      cases hpc
    | posix t => exact hx rfl
    | run t f p hrq hnext =>
      rw [Action.task, hrq] at hoff
      cases hoff
  have hsched : (apply s x.task f).sched t = s.sched t := by
    rw [apply_sched_of_ne s x.task f htx]
    cases hw : f.wakes with
    | none => rfl
    | some b =>
      -- Only the queue of `e` can hold the sleeper, and nobody is there to wake it.
      refine if_neg fun hq => ?_
      have hbl := hi.guarded.inv.wakes_listed hm hw
      have hwait := (hi.guarded.inv.entries.queued t b hbl hq).1
      have hbe : b = e := by
        rw [State.holds, hpc] at hwait
        cases hwait
        rfl
      have ho := hm.origin
      cases f with
      | closeSection a process =>
        have hab : a = b := by cases process <;> simp_all [Effect.wakes]
        exact hi.unlinking x.task (by rw [State.holds, ho.1, hab, hbe]; rfl)
      | wakeUpAll a =>
        obtain ⟨n, hpca, _⟩ := ho
        cases hw
        exact hi.signalling x.task (by rw [State.holds, hpca, hbe]; rfl)
      | _ => cases hw
  refine ⟨by simpa [htx] using hpc, ?_, ?_⟩
  · rw [goto_sched, hsched]
    exact hs
  · rw [goto_sched, hsched]
    exact hoff

theorem shielded_run {s m : State} {e : Addr} {ys : List Action} (hs : SeqInv s)
    (hquiet : s.quiet) (he : e ∈ s.eventlist)
    (h : Run step (Confined (Powerless (s.mem e))) s ys m) : Shielded (s.mem e) e m := by
  have hstart : Shielded (s.mem e) e s := by
    refine ⟨⟨hs, credsIn_of_quiet hquiet _, he, rfl, fun t => no_hold_of_quiet hquiet (by simp)⟩,
      credsIn_of_quiet hquiet _, rfl, fun t => no_hold_of_quiet hquiet (by simp),
      fun t => no_hold_of_quiet hquiet (by simp), fun t hpc => ?_⟩
    have ht := hquiet t
    rw [hpc] at ht
    cases ht
  exact h.invariant (Shielded (s.mem e) e) hstart fun _ _ _ hi hx hstep => hi.step hx hstep

/-! ### A call that has ended -/

theorem callEnds_quiet {s s' : State} {t : Task} {c : Cred} {k : Call} {o : Option Int}
    (hs : SeqInv s) (hquiet : s.quiet) (h : CallEnds s t c k s' o) : SeqInv s' ∧ s'.quiet := by
  have hkeep : ∀ s x s', SeqInv s ∧ (∀ u, u ≠ t → (s.pc u).parked = true) → x.task = t →
      step s x = some s' → SeqInv s' ∧ ∀ u, u ≠ t → (s'.pc u).parked = true := by
    intro s x s' hinv hx hstep
    obtain ⟨hi, hother⟩ := hinv
    refine ⟨hi.step (.inr (hx ▸ hother)) hstep, fun u hu => ?_⟩
    rw [step_pc_of_ne hstep (hx ▸ hu)]
    exact hother u hu
  obtain ⟨m, hcall, xs, hr, hend⟩ := h
  have hm := hkeep s _ m ⟨hs, fun u _ => hquiet u⟩ rfl hcall
  obtain ⟨hs', hother⟩ := hr.invariant _ hm fun s x s' hi hown hstep =>
    hkeep s x s' hi hown.task hstep
  refine ⟨hs', fun u => ?_⟩
  by_cases hu : u = t
  · subst hu
    cases o with
    | some r =>
      rw [show s'.pc u = .ret r from hend]
      rfl
    | none =>
      obtain ⟨a, hpc, _⟩ := hend
      rw [hpc]
      rfl
  · exact hother u hu

theorem chown_eventlist {s s' : State} {t : Task} {c : Cred} {i : Int32} {U G : UInt32}
    {junk : Option Addr} {o : Option Int} (hs : SeqInv s) (ht : s.pc t = .user)
    (h : CallEnds s t c (.doeventchown i U G junk) s' o) : s'.eventlist = s.eventlist := by
  have hrq := onRq_of_user hs.own ht
  have hf := (soloEnds_chown hrq c i U G junk).mp ((callEnds_iff ht).mp h)
  have hs' : s' = (sysDoeventchown s t c i U G junk).1 := congrArg Prod.fst hf
  rw [hs', sysDoeventchown]
  split
  · rfl
  · split <;> rfl

/-- Callers other than root and the owner change nothing about owner, group and flags of a
live event; without the group permission they neither close it nor signal it; and an owner
that has given the event away is one of them. -/
theorem ownership_confined (mem : Addr → Event) (user : Task → UserMem) (xs : List Action)
    (s : State) (hrun : Run step OneAtATime (doeventInit mem user) xs s) (hquiet : s.quiet)
    (e : Addr) (he : e ∈ s.eventlist) :
    (∀ ys m, Run step (Confined (Outsider (s.mem e).uid)) s ys m →
      KeptWhileLive (Confined (Outsider (s.mem e).uid)) e s ys m) ∧
    (∀ ys m, Run step (Confined (Powerless (s.mem e))) s ys m →
      e ∈ m.eventlist ∧ (m.mem e).attrs = (s.mem e).attrs ∧
      (m.mem e).condition = (s.mem e).condition ∧
      ∀ t x m', m.blockedOn t e → x ≠ .posix t → Confined (Powerless (s.mem e)) m x →
        step m x = some m' → m'.blockedOn t e) ∧
    (∀ t c i U G junk s', s.pc t = .user → c.euid ≠ 0 → (s.mem e).uid = c.euid → U ≠ c.euid →
      CallEnds s t c (.doeventchown i U G junk) s' (some 0) → (s'.mem e).uid = U →
      ∀ ys m, Run step (Confined fun c' => c'.euid = c.euid) s' ys m →
        KeptWhileLive (Confined fun c' => c'.euid = c.euid) e s' ys m) := by
  have hs := seqInv_run hrun (doeventInit_seqInv mem user) fun _ _ h => h
  refine ⟨?_, ?_, ?_⟩
  · intro ys m h
    exact guarded_run hs hquiet he (fun _ hc => hc) h
  · intro ys m h
    have hm := shielded_run hs hquiet he h
    refine ⟨hm.guarded.listed, hm.guarded.attrs, hm.condition, ?_⟩
    intro t x m' hb hx _ hstep
    exact hm.stays_blocked hstep hb hx
  · intro t c i U G junk s' ht hroot _ hne hcall huid ys m h
    obtain ⟨hs', hquiet'⟩ := callEnds_quiet hs hquiet hcall
    have he' : e ∈ s'.eventlist := by
      rw [chown_eventlist hs ht hcall]
      exact he
    refine guarded_run hs' hquiet' he' ?_ h
    intro c' hc'
    rw [Outsider, huid, hc']
    exact ⟨hroot, Ne.symm hne⟩

theorem ownership_confined_sleeper :
    ∃ s, Run step OneAtATime boot sleeperRun s ∧ s.quiet ∧ s.blockedOn 1 1 ∧
      Powerless (s.mem 1) ⟨6, 6⟩ ∧
      ∀ ys m, Run step (Confined (Powerless (s.mem 1))) s ys m →
        1 ∈ m.eventlist ∧ (m.mem 1).attrs = (5, 5, 1, 1) := by
  obtain ⟨s, hr, hi, ht⟩ := run_of_idle_test OneAtATime sleeperRun 2 (oneAtATimeTest 2)
    (fun s => ((List.range 2).all fun u => (s.pc u).parked) &&
      decide (s.blockedOn 1 1 ∧ s.eventlist = [1] ∧ (s.mem 1).attrs = (5, 5, 1, 1)))
    (by decide) (boot_idleFrom 2) fun s x hi h => oneAtATime_of_test hi h
  rw [Bool.and_eq_true, decide_eq_true_eq] at ht
  obtain ⟨hpark, hb, hlist, hattrs⟩ := ht
  have hquiet := quiet_of_test hi hpark
  have hc := (ownership_confined bootMem bootUser sleeperRun s hr hquiet 1 (by simp [hlist])).2.1
  refine ⟨s, hr, hquiet, hb, ?_, ?_⟩
  · simp only [Event.attrs, Prod.mk.injEq] at hattrs
    simp [Powerless, Outsider, hattrs]
  · intro ys m h
    exact ⟨(hc ys m h).1, (hc ys m h).2.1.trans hattrs⟩

end DoEvent
