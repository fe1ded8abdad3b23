import DoEvent.Effects
import DoEvent.History

/-!
# Concurrent calls as calls one at a time

The calls that neither wait nor close: open, chown, chmod, stat and info. Each of them acts
on the shared state in one section, and would take effect there, except that chown and
chmod decide under the read lock whether they may write and write in a later section. As
long as no chown takes an event away from a task that is between these two sections, every
run of these calls can be told as calls executed one after the other.
-/

namespace DoEvent

open Transition

abbrev CallStatus := Status (Cred × Call) (Int × UserMem)

/-- One call executed alone, from entry to return. -/
def SerialCall (q : State) (t : Task) (a : Cred × Call) (b : Int × UserMem) (q' : State) : Prop :=
  ∃ q₁, CallEnds q t a.1 a.2 q₁ (some b.1) ∧ q₁.user t = b.2 ∧ step q₁ (.run t) = some q'

def sharesList (k : Kind) : Bool :=
  k = .doeventopen ∨ k = .doeventchown ∨ k = .doeventchmod ∨ k = .doeventstat ∨ k = .doeventinfo

/-- The caller `c` has looked up the event `a` to change it and has not yet done so. -/
def State.changes (s : State) (u : Task) (c : Cred) (a : Addr) : Prop :=
  (∃ UID GID, s.pc u = .chownWrite c a UID GID) ∨ ∃ uidFlag gidFlag, s.pc u = .chmodWrite c a uidFlag gidFlag

/-- A chown does not take an event away from another task that is about to change it. -/
def TakesFromNobody (s : State) (x : Action) : Prop :=
  ∀ t c a UID GID, x = .run t → s.pc t = .chownWrite c a UID GID →
    ∀ u c', u ≠ t → s.changes u c' a → c'.euid = 0 ∨ c'.euid = UID

/-- The condition suffices but is not necessary: a chmod that a chown overtakes can still be
ordered before it, since the two write different fields. -/
def OwnersApart (s : State) (x : Action) : Prop := x.callIn sharesList = true ∧ TakesFromNobody s x

/-! ### The state of the sequential execution -/

/-- The memory of a task whose call has read the list but not yet copied its results. -/
def copied (m : UserMem) : Pc → UserMem
  | .infoCopy num eventIDs l check => (infoFinish m num eventIDs l check).1
  | .statCopy p v => (statFinish m p v).1
  | _ => m

/-- How far a call is: `pending` before the section in which it takes effect, `done` with
its result after it. The parameters are the shared records and list, the memory of the
task, and the addresses in use in the sequential execution. -/
inductive Stage (mem : Addr → Event) (l : List Addr) (m : UserMem) (used : Addr → Bool) :
    Pc → CallStatus → Prop where
  | user : Stage mem l m used .user .idle
  | ret (a : Cred × Call) (r : Int) : Stage mem l m used (.ret r) (.done a (r, m))
  | openAlloc (c : Cred) : Stage mem l m used (.openAlloc c) (.pending (c, .doeventopen))
  | openWrite (c : Cred) (a : Addr) (hfree : used a = false) :
      Stage mem l m used (.openWrite c a) (.pending (c, .doeventopen))
  | openRet (a : Cred × Call) (e : Addr) (he : e ∈ l) :
      Stage mem l m used (.openRet e) (.done a ((mem e).id.toInt, m))
  | infoProbe (c : Cred) (num : Int32) (p : Option ℕ) (h : ¬ (num < 0 ∧ p ≠ none)) :
      Stage mem l m used (.infoProbe num p) (.pending (c, .doeventinfo num p))
  | infoRead (c : Cred) (num : Int32) (p : Option ℕ) (h : ¬ (num < 0 ∧ p ≠ none))
      (hp : infoProbeFails m p = false) :
      Stage mem l m used (.infoRead num p) (.pending (c, .doeventinfo num p))
  | infoCopy (a : Cred × Call) (num : Int32) (p : Option ℕ) (ids : List Int32) (check : Int32) :
      Stage mem l m used (.infoCopy num p ids check)
        (.done a ((infoFinish m num p ids check).2, (infoFinish m num p ids check).1))
  | chownRead (c : Cred) (i : Int32) (U G : UInt32) (junk : Option Addr)
      (h : ¬ (isValidEventId i ∨ U < 0 ∨ G < 0)) :
      Stage mem l m used (.chownRead c i U G junk) (.pending (c, .doeventchown i U G junk))
  | chownWrite (c : Cred) (i : Int32) (U G : UInt32) (junk : Option Addr) (e : Addr)
      (h : ¬ (isValidEventId i ∨ U < 0 ∨ G < 0)) (hfound : searchLoop mem i none l = some e)
      (hv : validateUserEvent c (some (mem e)) = true) :
      Stage mem l m used (.chownWrite c e U G) (.pending (c, .doeventchown i U G junk))
  | chmodRead (c : Cred) (i uf gf : Int32) (junk : Option Addr) (h : isValidEventId i = false) :
      Stage mem l m used (.chmodRead c i uf gf junk) (.pending (c, .doeventchmod i uf gf junk))
  | chmodWrite (c : Cred) (i uf gf : Int32) (junk : Option Addr) (e : Addr)
      (h : isValidEventId i = false) (hfound : searchLoop mem i none l = some e)
      (hv : validateUserEvent c (some (mem e)) = true) :
      Stage mem l m used (.chmodWrite c e uf gf) (.pending (c, .doeventchmod i uf gf junk))
  | statProbe (c : Cred) (i : Int32) (p : StatPtrs) (junk : Option Addr) :
      Stage mem l m used (.statProbe i p junk) (.pending (c, .doeventstat i p junk))
  | statRead (c : Cred) (i : Int32) (p : StatPtrs) (v : StatVals) (junk : Option Addr)
      (hp : statProbe m p = some v) (h : isValidEventId i = false) :
      Stage mem l m used (.statRead i p v junk) (.pending (c, .doeventstat i p junk))
  | statCopy (a : Cred × Call) (p : StatPtrs) (v : StatVals) :
      Stage mem l m used (.statCopy p v) (.done a ((statFinish m p v).2, (statFinish m p v).1))

/-- The state `q` of the sequential execution so far has the records and the list of `s`. -/
structure Sim (s : State) (st : Task → CallStatus) (q : State) : Prop where
  list : ListInv s
  listed : s.eventlist ≠ []
  mem : q.mem = s.mem
  eventlist : q.eventlist = s.eventlist
  used : ∀ a, q.inUse a = true → s.inUse a = true
  user : ∀ t, q.user t = copied (s.user t) (s.pc t)
  ready : ∀ t, q.pc t = .user ∧ (q.sched t).onRq = true
  stage : ∀ t, Stage s.mem s.eventlist (s.user t) q.inUse (s.pc t) (st t)

theorem validateUserEvent_congr {c : Cred} {v w : Event} (h : w.uid = v.uid) :
    validateUserEvent c (some w) = validateUserEvent c (some v) := by
  simp [validateUserEvent, h]

section
variable {s : State} {x : Action} {f : Effect} {p : Pc} {st : Task → CallStatus} {q : State}

theorem Sim.noUnlink (hi : Sim s st q) (x : Action) : NoUnlink s x := by
  rintro b ⟨t, process, rfl, hpc⟩
  have ht := hi.stage t
  rw [hpc] at ht
  cases ht

theorem Sim.id_listed (hi : Sim s st q) (hm : Move s x f p) {a : Addr} (ha : a ∈ s.eventlist) :
    ((apply s x.task f).mem a).id = (s.mem a).id := by
  rw [apply_id]
  cases f with
  | openSection c b =>
    have hab : a ≠ b := by
      rintro rfl
      exact (hi.list.owned x.task a (.inl (holds_of_pc hm.origin.1 rfl))).2.1 ha
    simp [hab]
  | _ => rfl

theorem Sim.authorised (hi : Sim s st q) (hx : TakesFromNobody s x) (hm : Move s x f p) {u : Task}
    (hu : u ≠ x.task) {c : Cred} {e : Addr} (he : e ∈ s.eventlist) (hc : s.changes u c e)
    (hv : validateUserEvent c (some (s.mem e)) = true) :
    validateUserEvent c (some ((apply s x.task f).mem e)) = true := by
  have huid := apply_uid s x.task f e
  have ho := hm.origin
  cases f with
  | openSection c' b =>
    have hne : e ≠ b := by
      rintro rfl
      exact (hi.list.owned x.task e (.inl (holds_of_pc ho.1 rfl))).2.1 he
    rw [validateUserEvent_congr (huid.trans (if_neg hne))]
    exact hv
  | setOwner b U G =>
    by_cases heb : e = b
    · subst heb
      obtain ⟨c', hpc, _⟩ := ho
      have hrun : x = .run x.task := by
        cases hm with
        | run t f p hrq hnext => rfl
      simp only [validateUserEvent, huid.trans (if_pos rfl), Bool.or_eq_true, beq_iff_eq]
      exact hx x.task c' e U G hrun hpc u c hu hc
    · rw [validateUserEvent_congr (huid.trans (if_neg heb))]
      exact hv
  | _ =>
    rw [validateUserEvent_congr huid]
    exact hv

theorem Sim.stage_other (hi : Sim s st q) (hx : TakesFromNobody s x) (hm : Move s x f p) {u : Task}
    (hu : u ≠ x.task) {used : Addr → Bool}
    (hused : ∀ a, used a = true → q.inUse a = true ∨ ∃ c, f = .openSection c a) :
    Stage (apply s x.task f).mem (apply s x.task f).eventlist (s.user u) used (s.pc u) (st u) := by
  have hlist : ∃ l, (apply s x.task f).eventlist = s.eventlist ++ l := by
    rw [apply_eventlist]
    cases f with
    | openSection c b => exact ⟨[b], rfl⟩
    | closeSection b process => exact absurd hm.unlinks (hi.noUnlink x b)
    | _ => exact ⟨[], (List.append_nil _).symm⟩
  obtain ⟨l, hl⟩ := hlist
  have hid : ∀ a ∈ s.eventlist, ((apply s x.task f).mem a).id = (s.mem a).id :=
    fun a => hi.id_listed hm
  have hst := hi.stage u
  rw [hl]
  generalize hpc : s.pc u = pc at hst ⊢
  generalize st u = su at hst ⊢
  cases hst with
  | user => exact .user
  | ret a r => exact .ret a r
  | openAlloc c => exact .openAlloc c
  | openWrite c a hfree =>
    refine .openWrite c a ?_
    by_contra hne
    rcases hused a (by simpa using hne) with h | ⟨c', rfl⟩
    · rw [hfree] at h
      cases h
    · have hown : s.owns u a := .inl (holds_of_pc hpc rfl)
      have hown' : s.owns x.task a := .inl (holds_of_pc hm.origin.1 rfl)
      exact hu (hi.list.ownedOnce u x.task a hown hown')
  | openRet a e he =>
    rw [← hid e he]
    exact .openRet a e (List.mem_append_left l he)
  | infoProbe c num p h => exact .infoProbe c num p h
  | infoRead c num p h hp => exact .infoRead c num p h hp
  | infoCopy a num p ids check => exact .infoCopy a num p ids check
  | chownRead c i U G junk h => exact .chownRead c i U G junk h
  | chownWrite c i U G junk e h hfound hv =>
    exact .chownWrite c i U G junk e h (searchLoop_append hfound hid)
      (hi.authorised hx hm hu (searchLoop_some hfound).1 (.inl ⟨U, G, hpc⟩) hv)
  | chmodRead c i uf gf junk h => exact .chmodRead c i uf gf junk h
  | chmodWrite c i uf gf junk e h hfound hv =>
    exact .chmodWrite c i uf gf junk e h (searchLoop_append hfound hid)
      (hi.authorised hx hm hu (searchLoop_some hfound).1 (.inr ⟨uf, gf, hpc⟩) hv)
  | statProbe c i p junk => exact .statProbe c i p junk
  | statRead c i p v junk hp h => exact .statRead c i p v junk hp h
  | statCopy a p v => exact .statCopy a p v

theorem Sim.advance (hi : Sim s st q) (hx : TakesFromNobody s x) (hm : Move s x f p)
    {st' : Task → CallStatus} {q' : State} (hmem : q'.mem = (apply s x.task f).mem)
    (heventlist : q'.eventlist = (apply s x.task f).eventlist)
    (hused : ∀ a, q'.inUse a = true → q.inUse a = true ∨ ∃ c, f = .openSection c a)
    (hst : ∀ u, u ≠ x.task → st' u = st u) (husers : ∀ u, u ≠ x.task → q'.user u = q.user u)
    (huser : q'.user x.task = copied ((apply s x.task f).user x.task) p)
    (hready : ∀ u, q'.pc u = .user ∧ (q'.sched u).onRq = true)
    (hstage : Stage (apply s x.task f).mem (apply s x.task f).eventlist
      ((apply s x.task f).user x.task) q'.inUse p (st' x.task)) :
    Sim ((apply s x.task f).goto x.task p) st' q' := by
  have hlist := hi.list.step (hi.noUnlink x).alone (step_eq_some.mpr ⟨f, p, hm, rfl⟩)
  have husame : ∀ u, u ≠ x.task → (apply s x.task f).user u = s.user u := by
    intro u hu
    rw [apply_user]
    cases f with
    | copyOut m => exact Function.update_of_ne hu _ _
    | _ => rfl
  refine ⟨hlist, ?_, hmem, heventlist, ?_, ?_, hready, ?_⟩
  · rw [goto_eventlist, apply_eventlist]
    cases f with
    | openSection c a => simp
    | closeSection a process => exact absurd hm.unlinks (hi.noUnlink x a)
    | _ => exact hi.listed
  · intro a ha
    have hsa : s.inUse a = true := by
      rcases hused a ha with h | ⟨c, rfl⟩
      · exact hi.used a h
      · exact (hi.list.owned x.task a (.inl (holds_of_pc hm.origin.1 rfl))).1
    rw [goto_inUse, apply_inUse]
    have ho := hm.origin
    cases f with
    | kmalloc b =>
      by_cases hab : a = b
      · simp [hab]
      · simpa [hab] using hsa
    | kfree b =>
      obtain ⟨n, hpc, _⟩ := ho
      have ht := hi.stage x.task
      rw [hpc] at ht
      cases ht
    | _ => exact hsa
  · intro u
    by_cases hu : u = x.task
    · subst hu
      simpa using huser
    · rw [husers u hu, hi.user u]
      simp [hu, husame u hu]
  · intro u
    by_cases hu : u = x.task
    · subst hu
      simpa using hstage
    · have hother := hi.stage_other hx hm hu hused
      rw [hst u hu]
      simpa [hu, husame u hu] using hother

/-- A step that the sequential execution does not notice. -/
theorem Sim.stutter (hi : Sim s st q) (hx : TakesFromNobody s x) (hm : Move s x f p)
    (hmem : (apply s x.task f).mem = s.mem) (hlist : (apply s x.task f).eventlist = s.eventlist)
    (huser : copied (s.user x.task) (s.pc x.task) = copied ((apply s x.task f).user x.task) p)
    (hstage : Stage s.mem s.eventlist ((apply s x.task f).user x.task) q.inUse p (st x.task)) :
    Sim ((apply s x.task f).goto x.task p) st q := by
  refine hi.advance hx hm (hi.mem.trans hmem.symm) (hi.eventlist.trans hlist.symm)
    (fun a ha => .inl ha) (fun _ _ => rfl) (fun _ _ => rfl) ((hi.user x.task).trans huser) hi.ready ?_
  rw [hmem, hlist]
  exact hstage

end

/-! ### Calls of the sequential execution -/

theorem serialCall_of {q q₂ : State} {t : Task} {c : Cred} {k : Call} {r : Int}
    {answer : Option Addr} (hpc : q.pc t = .user) (hrq : (q.sched t).onRq = true)
    (hrq₂ : (q₂.sched t).onRq = true) (hfree : ∀ a, answer = some a → q.inUse a = false)
    (hcall : sysCall q t c k answer = returned q₂ t r) :
    SerialCall q t (c, k) (r, q₂.user t) (q₂.goto t .user) := by
  have hret : step (q₂.goto t (.ret r)) (.run t) = some (q₂.goto t .user) := by
    have hrq' : ((q₂.goto t (.ret r)).sched t).onRq = true := hrq₂
    rw [step_of_flow hrq' (by simp) (.ret r)]
    simp [apply]
  exact ⟨q₂.goto t (.ret r), (callEnds_iff hpc).mpr ((soloEnds_iff hrq c k).mpr
    ⟨answer, hfree, hcall.symm⟩), rfl, hret⟩

theorem serialCall_fail {q : State} {t : Task} {c : Cred} {k : Call} (hpc : q.pc t = .user)
    (hrq : (q.sched t).onRq = true) (hcall : sysCall q t c k none = returned q t (-1)) :
    SerialCall q t (c, k) (-1, q.user t) q := by
  have h := serialCall_of hpc hrq hrq (by simp) hcall
  rwa [← hpc, goto_self] at h

theorem readSectionUser_found {mem : Addr → Event} {l : List Addr} {c : Cred} {i : Int32}
    {junk : Option Addr} {e : Addr} (hl : l ≠ []) :
    readSectionUser mem l c i junk = some e ↔
      searchLoop mem i none l = some e ∧ validateUserEvent c (some (mem e)) = true := by
  simp only [readSectionUser, searchLoop_junk mem i junk hl]
  constructor
  · intro h
    split at h
    next hv =>
      rw [h] at hv
      exact ⟨h, hv⟩
    next => cases h
  · intro hboth
    obtain ⟨hs, hv⟩ := hboth
    simp [hs, hv]

section
variable {s : State} {st : Task → CallStatus} {q : State} {t : Task} {f : Effect} {p : Pc}
  {c : Cred} {k : Call}

/-- What the sequential execution does when the call of `t` takes effect, in terms of the
state `q₂` that the call leaves. -/
theorem Sim.commit (hi : Sim s st q) {x : Action} (hx : TakesFromNobody s x) (hm : Move s x f p)
    (hst : st x.task = .pending (c, k)) {answer : Option Addr} {q₂ : State} {r : Int}
    (hfree : ∀ a, answer = some a → q.inUse a = false)
    (hcall : sysCall q x.task c k answer = returned q₂ x.task r)
    (hpc : q₂.pc = q.pc) (hsched : q₂.sched = q.sched) (hmem : q₂.mem = (apply s x.task f).mem)
    (hlist : q₂.eventlist = (apply s x.task f).eventlist)
    (hused : ∀ a, q₂.inUse a = true → q.inUse a = true ∨ ∃ c, f = .openSection c a)
    (husers : ∀ u, u ≠ x.task → q₂.user u = q.user u)
    (huser : q₂.user x.task = copied ((apply s x.task f).user x.task) p)
    (hstage : Stage (apply s x.task f).mem (apply s x.task f).eventlist
      ((apply s x.task f).user x.task) q₂.inUse p (.done (c, k) (r, q₂.user x.task))) :
    ∃ st' q', Commits SerialCall st q [] st' q' ∧
      Sim ((apply s x.task f).goto x.task p) st' q' := by
  obtain ⟨hqpc, hqrq⟩ := hi.ready x.task
  have hserial := serialCall_of hqpc hqrq (hsched ▸ hqrq) hfree hcall
  refine ⟨_, _, .commit hst hserial (.nil _ _), ?_⟩
  refine hi.advance hx hm hmem hlist hused (fun u hu => Function.update_of_ne hu _ _) husers huser
    ?_ ?_
  · intro u
    obtain ⟨hupc, hurq⟩ := hi.ready u
    refine ⟨?_, by rw [goto_sched, hsched]; exact hurq⟩
    by_cases hu : u = x.task
    · simp [hu]
    · simpa [hu, hpc] using hupc
  · rw [Function.update_self]
    exact hstage

/-- A call that gives up takes effect then, and changes nothing. -/
theorem Sim.fail (hi : Sim s st q) {x : Action} (hx : TakesFromNobody s x)
    (hm : Move s x .skip (.ret (-1))) (hst : st x.task = .pending (c, k))
    (hcopied : copied (s.user x.task) (s.pc x.task) = s.user x.task)
    (hcall : sysCall q x.task c k none = returned q x.task (-1)) :
    ∃ st' q', Commits SerialCall st q [] st' q' ∧
      Sim ((apply s x.task .skip).goto x.task (.ret (-1))) st' q' := by
  have huser : q.user x.task = s.user x.task := (hi.user x.task).trans hcopied
  refine hi.commit hx hm hst (by simp) hcall rfl rfl hi.mem hi.eventlist (fun a ha => .inl ha)
    (fun _ _ => rfl) huser ?_
  rw [huser]
  exact .ret (c, k) (-1)

/-! ### The sections in which the calls take effect -/

theorem Sim.openWrite (hi : Sim s st q) (hx : TakesFromNobody s (.run t)) {e : Addr}
    (hm : Move s (.run t) (.openSection c e) (.openRet e)) (hpc : s.pc t = .openWrite c e)
    (hst : st t = .pending (c, .doeventopen)) (hfree : q.inUse e = false) :
    ∃ st' q', Commits SerialCall st q [] st' q' ∧
      Sim ((apply s t (.openSection c e)).goto t (.openRet e)) st' q' := by
  have huser : q.user t = s.user t := by rw [hi.user t, hpc]; rfl
  have hmem : (openSection { q with inUse := Function.update q.inUse e true } c e).mem =
      (openSection s c e).mem := by
    simp only [openSection, lastEvent, hi.mem, hi.eventlist]
  have hanswer : ∀ a, some e = some a → q.inUse a = false := by simpa using hfree
  refine hi.commit hx hm hst hanswer rfl rfl rfl hmem ?_ ?_ (fun _ _ => rfl) huser ?_
  · exact congrArg (· ++ [e]) hi.eventlist
  · intro a ha
    by_cases hae : a = e
    · exact .inr ⟨c, by rw [hae]⟩
    · exact .inl (by simpa [openSection, hae] using ha)
  · have hout : (openSection { q with inUse := Function.update q.inUse e true } c e).user t =
        s.user t := huser
    simp only [Action.task, hmem, hout]
    exact .openRet _ e (List.mem_append_right _ (List.mem_singleton_self e))

/-- chown and chmod take effect in their write section. -/
theorem Sim.write (hi : Sim s st q) (hx : TakesFromNobody s (.run t)) (hm : Move s (.run t) f (.ret 0))
    {e : Addr} {g : Event → Event} (hf : apply s t f = s.modify e g)
    (hst : st t = .pending (c, k)) (hcopied : copied (s.user t) (s.pc t) = s.user t)
    (hcall : sysCall q t c k none = returned (q.modify e g) t 0) :
    ∃ st' q', Commits SerialCall st q [] st' q' ∧ Sim ((apply s t f).goto t (.ret 0)) st' q' := by
  have huser : (q.modify e g).user t = s.user t := (hi.user t).trans hcopied
  have hmem : (q.modify e g).mem = (apply s t f).mem := by
    rw [hf]
    simp only [State.modify, hi.mem]
  have hlist : (q.modify e g).eventlist = (apply s t f).eventlist := by
    rw [hf]
    exact hi.eventlist
  have hsame : (apply s t f).user t = s.user t := by rw [hf]; rfl
  refine hi.commit hx hm hst (by simp) hcall rfl rfl hmem hlist (fun a ha => .inl ha)
    (fun _ _ => rfl) (huser.trans hsame.symm) ?_
  simp only [Action.task, hsame, huser]
  exact .ret _ 0

/-- info and stat take effect when they read the list; the copy to user space comes later. -/
theorem Sim.read (hi : Sim s st q) (hx : TakesFromNobody s (.run t)) (hm : Move s (.run t) .skip p)
    (hst : st t = .pending (c, k)) {m : UserMem} {r : Int}
    (hcall : sysCall q t c k none =
      returned { q with user := Function.update q.user t m } t r)
    (hcopied : m = copied (s.user t) p)
    (hstage : Stage s.mem s.eventlist (s.user t) q.inUse p (.done (c, k) (r, m))) :
    ∃ st' q', Commits SerialCall st q [] st' q' ∧ Sim ((apply s t .skip).goto t p) st' q' := by
  refine hi.commit hx hm hst (by simp) hcall rfl rfl hi.mem hi.eventlist (fun a ha => .inl ha)
    (fun u hu => Function.update_of_ne hu _ _) ?_ ?_
  · exact (Function.update_self ..).trans hcopied
  · simp only [Action.task, Function.update_self]
    exact hstage

theorem Sim.silent (hi : Sim s st q) (hx : TakesFromNobody s (.run t)) (hm : Move s (.run t) f p)
    {su : CallStatus} (hst : st t = su) (hmem : (apply s t f).mem = s.mem)
    (hlist : (apply s t f).eventlist = s.eventlist)
    (huser : copied (s.user t) (s.pc t) = copied ((apply s t f).user t) p)
    (hstage : Stage s.mem s.eventlist ((apply s t f).user t) q.inUse p su) :
    ∃ st' q', Commits SerialCall st q [] st' q' ∧ Sim ((apply s t f).goto t p) st' q' :=
  ⟨st, q, .nil _ _, hi.stutter hx hm hmem hlist huser (hst ▸ hstage)⟩

theorem Sim.run (hi : Sim s st q) (hx : TakesFromNobody s (.run t)) (hrq : (s.sched t).onRq = true)
    (hf : Flow s t (s.pc t) f p) :
    ∃ st' q', Commits SerialCall st q (callEvents s (.run t)) st' q' ∧
      Sim ((apply s t f).goto t p) st' q' := by
  have hm : Move s (.run t) f p := .run t f p hrq hf.next
  have hstage := hi.stage t
  have huser := hi.user t
  simp only [callEvents]
  generalize hpc : s.pc t = pc at hf hstage huser
  generalize hst : st t = su at hstage
  -- A call takes effect in the step in which its failure is decided, in its write section, or
  -- in its read section when it has none; its other steps are silent.
  cases hstage with
  | user => cases hf
  | openAlloc c => cases hf
  | ret a r =>
    cases hf
    refine ⟨Function.update st t .idle, q, .respond hst (.nil _ _), ?_⟩
    exact hi.advance hx hm hi.mem hi.eventlist (fun a ha => .inl ha)
      (fun u hu => Function.update_of_ne hu _ _) (fun _ _ => rfl) huser hi.ready
      (by simpa [Action.task] using Stage.user)
  | openWrite c e hfree =>
    cases hf
    exact hi.openWrite hx hm hpc hst hfree
  | openRet a e he =>
    cases hf
    exact hi.silent hx hm hst rfl rfl (by rw [hpc]; rfl) (.ret a _)
  | infoProbe c num b h =>
    cases hf with
    | infoFault _ _ hfault =>
      refine hi.fail hx hm hst (by rw [Action.task, hpc]; rfl) ?_
      simp only [sysCall, sysDoeventinfo, if_neg h, Action.task, huser, copied, hfault, if_true]
    | infoProbe _ _ hfault =>
      exact hi.silent hx hm hst rfl rfl (by rw [hpc]; rfl) (.infoRead c num b h hfault)
  | infoRead c num b h hfault =>
    cases hf
    refine hi.read hx hm hst ?_ rfl (.infoCopy _ _ _ _ _)
    simp only [sysCall, sysDoeventinfo, if_neg h, huser, copied, hfault, Bool.false_eq_true, if_false,
      hi.mem, hi.eventlist]
  | infoCopy a num b ids check =>
    cases hf
    refine hi.silent hx hm hst rfl rfl (by simp [hpc, apply_user, copied]) ?_
    simp only [apply_user, Function.update_self]
    exact .ret a _
  | chownRead c i U G junk h =>
    cases hf with
    | chownMiss _ _ _ _ _ hmiss =>
      refine hi.fail hx hm hst (by rw [Action.task, hpc]; rfl) ?_
      simp only [sysCall, sysDoeventchown, if_neg h, hi.mem, hi.eventlist, hmiss]
    | chownFound _ _ _ _ _ e hfound =>
      obtain ⟨hsearch, hv⟩ := (readSectionUser_found hi.listed).mp hfound
      exact hi.silent hx hm hst rfl rfl (by rw [hpc]; rfl) (.chownWrite c i U G junk e h hsearch hv)
  | chownWrite c i U G junk e h hsearch hv =>
    cases hf
    have hfound : readSectionUser s.mem s.eventlist c i junk = some e :=
      (readSectionUser_found hi.listed).mpr ⟨hsearch, hv⟩
    refine hi.write hx hm (e := e) (g := fun v => { v with uid := U, gid := G }) rfl hst (by rw [hpc]; rfl) ?_
    simp only [sysCall, sysDoeventchown, if_neg h, hi.mem, hi.eventlist, hfound]
  | chmodRead c i uf gf junk h =>
    cases hf with
    | chmodMiss _ _ _ _ _ hmiss =>
      refine hi.fail hx hm hst (by rw [Action.task, hpc]; rfl) ?_
      simp only [sysCall, sysDoeventchmod, h, Bool.false_eq_true, if_false, hi.mem, hi.eventlist, hmiss]
    | chmodFound _ _ _ _ _ e hfound =>
      obtain ⟨hsearch, hv⟩ := (readSectionUser_found hi.listed).mp hfound
      exact hi.silent hx hm hst rfl rfl (by rw [hpc]; rfl) (.chmodWrite c i uf gf junk e h hsearch hv)
  | chmodWrite c i uf gf junk e h hsearch hv =>
    cases hf
    have hfound : readSectionUser s.mem s.eventlist c i junk = some e :=
      (readSectionUser_found hi.listed).mpr ⟨hsearch, hv⟩
    refine hi.write hx hm (e := e) (g := fun v => { v with uidFlag := uf, gidFlag := gf }) rfl hst (by rw [hpc]; rfl) ?_
    simp only [sysCall, sysDoeventchmod, h, Bool.false_eq_true, if_false, hi.mem, hi.eventlist, hfound]
  | statProbe c i b junk =>
    cases hf with
    | statFault _ _ _ hfault =>
      refine hi.fail hx hm hst (by rw [Action.task, hpc]; rfl) ?_
      simp only [sysCall, sysDoeventstat, Action.task, huser, copied]
      rcases hfault with hfault | hi'
      · simp [hfault]
      · cases statProbe (s.user t) b <;> simp [hi']
    | statProbe _ _ _ v hprobe hvalid =>
      exact hi.silent hx hm hst rfl rfl (by rw [hpc]; rfl) (.statRead c i b v junk hprobe hvalid)
  | statRead c i b v junk hprobe h =>
    cases hf with
    | statMiss _ _ _ _ hmiss =>
      refine hi.fail hx hm hst (by rw [Action.task, hpc]; rfl) ?_
      simp [sysCall, sysDoeventstat, Action.task, huser, copied, hprobe, h, hi.mem, hi.eventlist, hmiss]
    | statFound _ _ _ _ e hfound =>
      refine hi.read hx hm hst ?_ rfl (.statCopy _ _ _)
      simp [sysCall, sysDoeventstat, huser, copied, hprobe, h, hi.mem, hi.eventlist, hfound]
  | statCopy a b v =>
    cases hf
    refine hi.silent hx hm hst rfl rfl (by simp [hpc, apply_user, copied]) ?_
    simp only [apply_user, Function.update_self]
    exact .ret a _

/-! ### Entering a call -/

theorem copied_entry (m : UserMem) (c : Cred) (k : Call) : copied m (entry c k) = m := by
  cases k <;> simp only [entry] <;> (try split) <;> rfl

theorem Sim.refused (hi : Sim s st q) (hx : TakesFromNobody s (.call t c k)) (hpc : s.pc t = .user)
    (hst : st t = .idle) (hentry : entry c k = .ret (-1))
    (hcall : sysCall q t c k none = returned q t (-1)) :
    ∃ st' q', Commits SerialCall st q [.invoke t (c, k)] st' q' ∧
      Sim ((apply s t .skip).goto t (entry c k)) st' q' := by
  have hm : Move s (.call t c k) .skip (entry c k) := .call t c k hpc
  obtain ⟨hqpc, hqrq⟩ := hi.ready t
  have huser : q.user t = s.user t := by rw [hi.user t, hpc]; rfl
  have hserial := serialCall_fail hqpc hqrq hcall
  refine ⟨_, q, .invoke hst (.commit (Function.update_self ..) hserial (.nil _ _)), ?_⟩
  refine hi.advance hx hm hi.mem hi.eventlist (fun a ha => .inl ha) (fun u hu => ?_)
    (fun _ _ => rfl) ?_ hi.ready ?_
  · have hut : u ≠ t := hu
    rw [Function.update_of_ne hut, Function.update_of_ne hut]
  · exact huser.trans (copied_entry _ c k).symm
  · simp only [Action.task, Function.update_self, hentry, huser]
    exact .ret _ _

theorem Sim.entered (hi : Sim s st q) (hx : TakesFromNobody s (.call t c k)) (hpc : s.pc t = .user)
    (hst : st t = .idle)
    (hstage : Stage s.mem s.eventlist (s.user t) q.inUse (entry c k) (.pending (c, k))) :
    ∃ st' q', Commits SerialCall st q [.invoke t (c, k)] st' q' ∧
      Sim ((apply s t .skip).goto t (entry c k)) st' q' := by
  have hm : Move s (.call t c k) .skip (entry c k) := .call t c k hpc
  have huser : q.user t = s.user t := by rw [hi.user t, hpc]; rfl
  refine ⟨_, q, .invoke hst (.nil _ _), ?_⟩
  refine hi.advance hx hm hi.mem hi.eventlist (fun a ha => .inl ha)
    (fun u hu => Function.update_of_ne hu _ _) (fun _ _ => rfl) ?_ hi.ready ?_
  · exact huser.trans (copied_entry _ c k).symm
  · simp only [Action.task, Function.update_self]
    exact hstage

theorem Sim.call (hi : Sim s st q) (hx : TakesFromNobody s (.call t c k)) (hpc : s.pc t = .user)
    (hk : sharesList k.kind = true) :
    ∃ st' q', Commits SerialCall st q [.invoke t (c, k)] st' q' ∧
      Sim ((apply s t .skip).goto t (entry c k)) st' q' := by
  have hst : st t = .idle := by
    have hstage := hi.stage t
    rw [hpc] at hstage
    generalize st t = su at hstage
    cases hstage
    rfl
  cases k with
  | doeventopen => exact hi.entered hx hpc hst (.openAlloc c)
  | doeventinfo num b =>
    by_cases h : num < 0 ∧ b ≠ none
    · exact hi.refused hx hpc hst (if_pos h) (if_pos h)
    · refine hi.entered hx hpc hst ?_
      rw [show entry c (.doeventinfo num b) = .infoProbe num b from if_neg h]
      exact .infoProbe c num b h
  | doeventchown i U G junk =>
    by_cases h : isValidEventId i ∨ U < 0 ∨ G < 0
    · exact hi.refused hx hpc hst (if_pos h) (if_pos h)
    · refine hi.entered hx hpc hst ?_
      rw [show entry c (.doeventchown i U G junk) = .chownRead c i U G junk from if_neg h]
      exact .chownRead c i U G junk h
  | doeventchmod i uf gf junk =>
    by_cases h : isValidEventId i = true
    · exact hi.refused hx hpc hst (if_pos h) (if_pos h)
    · refine hi.entered hx hpc hst ?_
      rw [show entry c (.doeventchmod i uf gf junk) = .chmodRead c i uf gf junk from if_neg h]
      exact .chmodRead c i uf gf junk (by simpa using h)
  | doeventstat i b junk => exact hi.entered hx hpc hst (.statProbe c i b junk)
  | doeventclose i | doeventwait i | doeventsig i => cases hk

theorem Sim.step (hi : Sim s st q) {x : Action} {s' : State} (hx : OwnersApart s x)
    (h : step s x = some s') :
    ∃ st' q', Commits SerialCall st q (callEvents s x) st' q' ∧ Sim s' st' q' := by
  obtain ⟨f, p, hm, rfl⟩ := step_eq_some.mp h
  have hstage := hi.stage x.task
  cases hm with
  | call t c k hpc => exact hi.call hx.2 hpc hx.1
  | run t f p hrq hnext => exact hi.run hx.2 hrq (.of_next hnext)
  | nomem t c hpc =>
    have hst : st t = .pending (c, .doeventopen) := by
      rw [Action.task, hpc] at hstage
      generalize st t = su at hstage
      cases hstage
      rfl
    exact hi.fail hx.2 (.nomem t c hpc) hst (by rw [Action.task, hpc]; rfl) rfl
  | kmalloc t c a hpc hfree =>
    have hqfree : q.inUse a = false := by
      by_contra hne
      rw [hi.used a (by simpa using hne)] at hfree
      cases hfree
    refine ⟨st, q, .nil _ _, hi.stutter hx.2 (.kmalloc t c a hpc hfree) rfl rfl ?_ ?_⟩
    · rw [Action.task, hpc]
      rfl
    · rw [Action.task, hpc] at hstage
      simp only [Action.task]
      generalize st t = su at hstage ⊢
      cases hstage
      exact .openWrite c a hqfree
  | posix t => exact ⟨st, q, .nil _ _, hi.stutter hx.2 (.posix t) rfl rfl rfl hstage⟩
  | deliver t hpc => exact ⟨st, q, .nil _ _, hi.stutter hx.2 (.deliver t hpc) rfl rfl rfl hstage⟩

end

/-! ### Whole runs -/

theorem sim_start {s : State} (hlist : ListInv s) (hown : LocalInv s) (hlisted : s.eventlist ≠ [])
    (hidle : ∀ t, s.pc t = .user) : Sim s (fun _ => .idle) s := by
  refine ⟨hlist, hlisted, rfl, rfl, fun _ h => h, fun t => ?_, fun t => ⟨hidle t, ?_⟩, fun t => ?_⟩
  · rw [hidle t]
    rfl
  · have ht := hown t
    rw [hidle t] at ht
    exact ht.1
  · rw [hidle t]
    exact .user

theorem Sim.changes {s : State} {st : Task → CallStatus} {q : State} (hi : Sim s st q) {t : Task}
    {c : Cred} {a : Addr} (h : s.changes t c a) : c.euid = 0 ∨ c.euid = (s.mem a).uid := by
  have hstage := hi.stage t
  have hv : validateUserEvent c (some (s.mem a)) = true := by
    rcases h with ⟨U, G, hpc⟩ | ⟨uf, gf, hpc⟩ <;> rw [hpc] at hstage <;>
      generalize st t = su at hstage <;> cases hstage <;> assumption
  simpa [validateUserEvent] using hv

/-- The calls of a run can be executed one after the other in an order that respects real
time, with the same return values and outputs and the same list of events at the end; and
whoever changes an event is permitted to at that time. -/
theorem concurrent_calls_serial (mem : Addr → Event) (user : Task → UserMem) (xs : List Action)
    (s : State) (hrun : Run step UnlinksAlone (doeventInit mem user) xs s)
    (hlisted : s.eventlist ≠ []) (hidle : ∀ t, s.pc t = .user) (ys : List Action) (m : State)
    (hrest : Run step OwnersApart s ys m) (hdone : ∀ t, m.pc t = .user) :
    (∃ q, Linearizable SerialCall s (observe step callEvents s ys) q ∧
      q.eventlist = m.eventlist ∧ (∀ t, q.user t = m.user t) ∧
      ∀ a ∈ m.eventlist, (q.mem a).id = (m.mem a).id ∧ (q.mem a).attrs = (m.mem a).attrs) ∧
    ∀ ys₁ ys₂ n t c a, ys = ys₁ ++ .run t :: ys₂ → Run step AnyStep s ys₁ n → n.changes t c a →
      c.euid = 0 ∨ c.euid = (n.mem a).uid := by
  have hlist := hrun.invariant ListInv (doeventInit_listInv mem user)
    fun _ _ _ hi hx hstep => hi.step hx hstep
  have hstart := sim_start hlist (localInv_run hrun (doeventInit_localInv mem user)) hlisted hidle
  have hsim : ∀ {zs n}, Run step OwnersApart s zs n → ∃ st q,
      Commits SerialCall (fun _ => .idle) s (observe step callEvents s zs) st q ∧ Sim n st q :=
    fun hr => hr.commits callEvents Sim hstart fun _ _ _ _ _ hi hx hstep => hi.step hx hstep
  constructor
  · obtain ⟨st, q, hcommits, hend⟩ := hsim hrest
    refine ⟨q, hcommits.linearizable fun t => ?_, hend.eventlist, fun t => ?_, fun a _ => ?_⟩
    · have hstage := hend.stage t
      rw [hdone t] at hstage
      generalize st t = su at hstage
      cases hstage
      rfl
    · rw [hend.user t, hdone t]
      rfl
    · rw [hend.mem]
      exact ⟨rfl, rfl⟩
  · intro ys₁ ys₂ n t c a hys hn hc
    subst hys
    obtain ⟨n', hn', _⟩ := hrest.split
    cases hn.functional hn'
    obtain ⟨st, q, _, hi⟩ := hsim hn'
    exact hi.changes hc

def ownersApartTest (k : Task) (s : State) (x : Action) : Bool :=
  x.callIn sharesList && match s.pc x.task with
    | .chownWrite _ a UID _ => (List.range k).all fun u => u == x.task || match s.pc u with
        | .chownWrite c b _ _ | .chmodWrite c b _ _ => b != a || c.euid == 0 || c.euid == UID
        | _ => true
    | _ => true

theorem ownersApart_of_test {k : Task} {s : State} {x : Action} (hi : s.idleFrom k)
    (h : ownersApartTest k s x = true) : OwnersApart s x := by
  rw [ownersApartTest, Bool.and_eq_true] at h
  refine ⟨h.1, ?_⟩
  rintro t c a U G rfl hpc u c' hu hc
  have htest := h.2
  simp only [Action.task, hpc] at htest
  rcases hi.test htest u with huser | htu
  · rcases hc with ⟨U', G', hpcu⟩ | ⟨uf, gf, hpcu⟩ <;> rw [huser] at hpcu <;> cases hpcu
  · rcases hc with ⟨U', G', hpcu⟩ | ⟨uf, gf, hpcu⟩ <;> simpa [hu, hpcu] using htu

/-! ### Two chowns of one event -/

/-- The event of user 5, with all tasks back in user mode. -/
def ownedEvent : List Action := opens 0 ⟨5, 5⟩ 1

/-- Two tasks look the event up, and then both change it: a chown to user 6 by the caller
`c`, and the call `k` by the caller `c'`. -/
def changeTwice (c c' : Cred) (k : Call) : List Action :=
  [.call 1 c (.doeventchown 0 6 6 none), .call 2 c' k, .run 1, .run 2, .run 1, .run 2, .run 1, .run 2]

theorem concurrent_calls_serial_root :
    ∃ s m q, Run step UnlinksAlone boot ownedEvent s ∧
      Run step OwnersApart s (changeTwice rootCred rootCred (.doeventchmod 0 0 0 none)) m ∧
      Linearizable SerialCall s
        (observe step callEvents s (changeTwice rootCred rootCred (.doeventchmod 0 0 0 none))) q ∧
      q.eventlist = m.eventlist := by
  obtain ⟨s, hs, hi, ht⟩ := run_of_idle_test UnlinksAlone ownedEvent 1 (unlinksAloneTest 1)
    (fun s => decide (s.eventlist ≠ [] ∧ ((List.range 1).all fun u => s.pc u == .user) = true ∧
      (steps step (fun s x => decide (x.task < 3) && ownersApartTest 3 s x) s
        (changeTwice rootCred rootCred (.doeventchmod 0 0 0 none))).map
        (fun m => (List.range 3).all fun u => m.pc u == .user) = some true))
    (by decide) (boot_idleFrom 1) fun s x => unlinksAlone_of_test
  obtain ⟨hlisted, hpc, hturn⟩ := of_decide_eq_true ht
  have hidle := allUser_of_test hi hpc
  obtain ⟨m, hm, him, hend⟩ := run_of_idle_test OwnersApart _ 3 (ownersApartTest 3) _ hturn
    (fun t _ => hidle t) fun s x => ownersApart_of_test
  have hdone := allUser_of_test him hend
  obtain ⟨⟨q, hlin, hlist, _⟩, _⟩ := concurrent_calls_serial bootMem bootUser ownedEvent s hs hlisted
    hidle _ m hm hdone
  exact ⟨s, m, q, hs, hm, hlin, hlist⟩

theorem serialCall_chown {q q' : State} {t : Task} {c : Cred} {i : Int32} {U G : UInt32}
    {junk : Option Addr} {out : UserMem} (hpc : q.pc t = .user) (hrq : (q.sched t).onRq = true)
    (h : SerialCall q t (c, .doeventchown i U G junk) (0, out) q') :
    ∃ e, readSectionUser q.mem q.eventlist c i junk = some e ∧
      q' = (q.modify e fun v => { v with uid := U, gid := G }).goto t .user := by
  obtain ⟨q₁, hends, _, hret⟩ := h
  have hcall := (soloEnds_chown hrq c i U G junk).mp ((callEnds_iff hpc).mp hends)
  rw [sysDoeventchown] at hcall
  split at hcall
  · cases hcall
  · cases hr : readSectionUser q.mem q.eventlist c i junk with
    | none =>
      rw [hr] at hcall
      cases hcall
    | some e =>
      rw [hr] at hcall
      cases hcall
      refine ⟨e, rfl, ?_⟩
      have hrq' : (((q.modify e fun v => { v with uid := U, gid := G }).goto t (.ret 0)).sched
        t).onRq = true := hrq
      rw [step_of_flow hrq' (by simp) (.ret 0)] at hret
      rw [← Option.some.inj hret]
      simp [apply]

/-- One after the other, the second of two chowns away from their caller fails. -/
theorem chowns_not_both {s q q' : State} {t t' : Task} {c : Cred} {i : Int32} {U U' G G' : UInt32}
    {junk junk' : Option Addr} {out out' : UserMem} {a : Addr} (hroot : c.euid ≠ 0) (hU : U ≠ c.euid)
    (hlist : s.eventlist = [a]) (hready : ∀ u, s.pc u = .user ∧ (s.sched u).onRq = true)
    (h : SerialCall s t (c, .doeventchown i U G junk) (0, out) q)
    (h' : SerialCall q t' (c, .doeventchown i U' G' junk') (0, out') q') : False := by
  obtain ⟨e, hr, rfl⟩ := serialCall_chown (hready t).1 (hready t).2 h
  have hpc : ((s.modify e fun v => { v with uid := U, gid := G }).goto t .user).pc t' = .user := by
    by_cases ht : t' = t
    · simp [ht]
    · simpa [ht] using (hready t').1
  obtain ⟨e', hr', _⟩ := serialCall_chown hpc (hready t').2 h'
  have he := (readSectionUser_some (by simp [hlist]) hr).1
  rw [goto_mem, goto_eventlist] at hr'
  obtain ⟨he', _, hv⟩ := readSectionUser_some (by simp [State.modify, hlist]) hr'
  have hee : e' = e := by
    simp only [State.modify, hlist, List.mem_singleton] at he he'
    rw [he, he']
  subst hee
  simp [validateUserEvent, State.modify, hroot, Ne.symm hU] at hv

/-- Two chowns by the owner, to users 6 and 7, both look the event up before one of them
writes: both return 0, and no order of the two calls explains that. -/
theorem two_chowns_not_serial :
    ¬ ∀ mem user xs s ys m, Run step UnlinksAlone (doeventInit mem user) xs s → s.eventlist ≠ [] →
      (∀ t, s.pc t = .user) → Run step (fun _ x => x.callIn sharesList = true) s ys m →
      (∀ t, m.pc t = .user) →
      ∃ q, Linearizable SerialCall s (observe step callEvents s ys) q ∧
        q.eventlist = m.eventlist ∧ (∀ t, q.user t = m.user t) ∧
        ∀ a ∈ m.eventlist, (q.mem a).id = (m.mem a).id ∧ (q.mem a).attrs = (m.mem a).attrs := by
  intro hclaim
  obtain ⟨s, hs, hi, ht⟩ := run_of_idle_test UnlinksAlone ownedEvent 1 (unlinksAloneTest 1)
    (fun s => decide (s.eventlist = [1] ∧ ((List.range 1).all fun u => s.pc u == .user) = true ∧
      (steps step (fun _ x => decide (x.task < 3) && x.callIn sharesList) s
        (changeTwice ⟨5, 5⟩ ⟨5, 5⟩ (.doeventchown 0 7 7 none))).map
        (fun m => (List.range 3).all fun u => m.pc u == .user) = some true ∧
      (operations (observe step callEvents s
        (changeTwice ⟨5, 5⟩ ⟨5, 5⟩ (.doeventchown 0 7 7 none)))).map
        (fun o => (o.input, o.output.1)) =
        [((⟨5, 5⟩, .doeventchown 0 6 6 none), 0), ((⟨5, 5⟩, .doeventchown 0 7 7 none), 0)]))
    (by decide) (boot_idleFrom 1) fun s x => unlinksAlone_of_test
  obtain ⟨hlist, hpc, hturn, hops⟩ := of_decide_eq_true ht
  have hidle := allUser_of_test hi hpc
  have hready : ∀ t, s.pc t = .user ∧ (s.sched t).onRq = true :=
    fun t => ⟨hidle t, onRq_of_user (localInv_reachable hs) (hidle t)⟩
  obtain ⟨m, hm, him, hend⟩ := run_of_idle_test (fun _ x => x.callIn sharesList = true) _ 3
    (fun _ x => x.callIn sharesList) _ hturn (fun t _ => hidle t) fun _ _ _ h => h
  have hdone := allUser_of_test him hend
  obtain ⟨q, ⟨order, hperm, _, hserial⟩, _⟩ :=
    hclaim bootMem bootUser ownedEvent s _ m hs (by simp [hlist]) hidle hm hdone
  have hboth : ∀ o ∈ order, ∃ U G, (o.input, o.output.1) =
      ((⟨5, 5⟩, .doeventchown 0 U G none), 0) ∧ U ≠ 5 := by
    intro o ho
    have hmem := List.mem_map_of_mem (f := fun o => (o.input, o.output.1)) (hperm.mem_iff.mp ho)
    rw [hops, List.mem_cons, List.mem_singleton] at hmem
    rcases hmem with h | h
    · exact ⟨6, 6, h, by decide⟩
    · exact ⟨7, 7, h, by decide⟩
  have hlen : order.length = 2 := by
    rw [hperm.length_eq, ← List.length_map, hops]
    rfl
  obtain ⟨o, o', rfl⟩ := List.length_eq_two.mp hlen
  obtain ⟨U, G, hin, hU⟩ := hboth o (by simp)
  obtain ⟨U', G', hin', _⟩ := hboth o' (by simp)
  obtain ⟨hinput, hzero⟩ := Prod.mk.inj hin
  obtain ⟨hinput', hzero'⟩ := Prod.mk.inj hin'
  cases hserial with
  | cons hfirst hrest =>
    cases hrest with
    | cons hsecond _ =>
      rw [hinput, ← Prod.mk.eta (p := o.output), hzero] at hfirst
      rw [hinput', ← Prod.mk.eta (p := o'.output), hzero'] at hsecond
      exact chowns_not_both (by decide) hU hlist hready hfirst hsecond

end DoEvent
