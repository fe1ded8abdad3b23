import DoEvent.Sequential

/-!
# Exact effects of the calls that take an id

While the ids of the list are distinct the five copies of the search loop find the one
event with the given id, and the permission checks decide alone whether the call goes on.
What it then does when it runs alone, up to its return or its sleep, concerns that event.
-/

namespace DoEvent

open Transition

/-! ### Lookup and permission -/

theorem IdsInv.inj {s : State} (hi : IdsInv s) {a b : Addr} (ha : a ∈ s.eventlist)
    (hb : b ∈ s.eventlist) (h : (s.mem a).id = (s.mem b).id) : a = b := by
  have hnodup : (s.eventlist.map s.idOf).Nodup := by
    rw [List.Nodup, List.pairwise_map]
    exact hi.sorted.imp fun hlt => Int.ne_of_lt hlt
  exact List.inj_on_of_nodup_map hnodup ha hb (by rw [State.idOf, State.idOf, h])

theorem IdsInv.search {s : State} (hi : IdsInv s) {i : Int32} {e : Addr} :
    searchLoop s.mem i none s.eventlist = some e ↔ e ∈ s.eventlist ∧ (s.mem e).id = i := by
  constructor
  · exact searchLoop_some
  · intro hmem
    obtain ⟨he, hid⟩ := hmem
    cases hr : searchLoop s.mem i none s.eventlist with
    | none => exact absurd hid (searchLoop_none hr e he)
    | some b =>
      obtain ⟨hb, hbid⟩ := searchLoop_some hr
      rw [hi.inj he hb (hid.trans hbid.symm)]

theorem IdsInv.valid {s : State} (hi : IdsInv s) {e : Addr} (he : e ∈ s.eventlist) :
    isValidEventId (s.mem e).id = false := by
  have h0 := hi.nonneg e he
  have hle : (0 : Int32) ≤ (s.mem e).id := Int32.le_iff_toInt_le.mpr h0
  simpa [isValidEventId] using hle

/-- The caller may wait on, signal or close the live event `e`, and `i` is its id. -/
def MaySignal (s : State) (c : Cred) (i : Int32) (e : Addr) : Prop :=
  e ∈ s.eventlist ∧ (s.mem e).id = i ∧
    (c.euid = 0 ∨ (c.euid = (s.mem e).uid ∧ (s.mem e).uidFlag = 1) ∨
      (c.egid = (s.mem e).gid ∧ (s.mem e).gidFlag = 1))

instance (s : State) (c : Cred) (i : Int32) (e : Addr) : Decidable (MaySignal s c i e) :=
  inferInstanceAs (Decidable (_ ∧ _ ∧ _))

/-- The caller may change owner and flags of the live event `e`, and `i` is its id. -/
def MayChange (s : State) (c : Cred) (i : Int32) (e : Addr) : Prop :=
  e ∈ s.eventlist ∧ (s.mem e).id = i ∧ (c.euid = 0 ∨ c.euid = (s.mem e).uid)

theorem IdsInv.readSection_iff {s : State} (hi : IdsInv s) {c : Cred} {i : Int32} {e : Addr} :
    readSection s.mem s.eventlist c i = some e ↔ MaySignal s c i e := by
  constructor
  · intro h
    obtain ⟨he, hid, hv⟩ := readSection_some h
    refine ⟨he, hid, ?_⟩
    simpa [validateEvent, or_assoc] using hv
  · intro hmay
    obtain ⟨he, hid, hv⟩ := hmay
    have hs := hi.search.mpr ⟨he, hid⟩
    have hok : validateEvent c true (some (s.mem e)) = true := by
      simpa [validateEvent, or_assoc] using hv
    simp only [readSection, hs, Option.map_some, hok, if_true]

theorem IdsInv.readSectionUser_iff {s : State} (hi : IdsInv s) {c : Cred} {i : Int32} {e : Addr}
    (hne : s.eventlist ≠ []) (junk : Option Addr) :
    readSectionUser s.mem s.eventlist c i junk = some e ↔ MayChange s c i e := by
  constructor
  · intro h
    obtain ⟨he, hid, hv⟩ := readSectionUser_some hne h
    refine ⟨he, hid, ?_⟩
    simpa [validateUserEvent] using hv
  · intro hmay
    obtain ⟨he, hid, hv⟩ := hmay
    have hs := hi.search.mpr ⟨he, hid⟩
    have hok : validateUserEvent c (some (s.mem e)) = true := by
      simpa [validateUserEvent] using hv
    simp only [readSectionUser, searchLoop_junk _ _ junk hne, hs, Option.map_some, hok, if_true]

/-! ### One call from a quiescent state -/

/-- Task `t` makes the call `k` and runs alone until it returns or is asleep. -/
def CallEnds (s : State) (t : Task) (c : Cred) (k : Call) (s' : State) (o : Option Int) : Prop :=
  ∃ m, step s (.call t c k) = some m ∧ SoloEnds t m s' o

theorem callEnds_iff {s : State} {t : Task} (hpc : s.pc t = .user) {c : Cred} {k : Call} {s' : State}
    {o : Option Int} : CallEnds s t c k s' o ↔ SoloEnds t (s.goto t (entry c k)) s' o := by
  have hstep : step s (.call t c k) = some (s.goto t (entry c k)) := by simp [step, hpc]
  constructor
  · intro hends
    obtain ⟨m, hm, h⟩ := hends
    rw [hstep] at hm
    cases hm
    exact h
  · intro h
    exact ⟨_, hstep, h⟩

/-- The call has one outcome. It is not -1 exactly when some event meets `may`; with -1 the
state is unchanged, and with such an event the outcome is as `effect` says. -/
def ExactCall (s : State) (t : Task) (c : Cred) (k : Call) (may : Addr → Prop)
    (effect : Addr → State → Option Int → Prop) : Prop :=
  ∃ s' o, (∀ s₁ o₁, CallEnds s t c k s₁ o₁ ↔ s₁ = s' ∧ o₁ = o) ∧
    (o ≠ some (-1) ↔ ∃ e, may e) ∧ (o = some (-1) → s' = s.goto t (.ret (-1))) ∧
    ∀ e, may e → effect e s' o

theorem exactCall_of {s : State} {t : Task} {c : Cred} {k : Call} {may : Addr → Prop}
    {effect : Addr → State → Option Int → Prop} (f : State × Option Int)
    (hf : ∀ s₁ o₁, CallEnds s t c k s₁ o₁ ↔ (s₁, o₁) = f)
    (hnone : (¬ ∃ e, may e) → f = returned s t (-1))
    (hsome : ∀ e, may e → f.2 ≠ some (-1) ∧ effect e f.1 f.2) : ExactCall s t c k may effect := by
  refine ⟨f.1, f.2, ?_, ?_, ?_, fun e he => (hsome e he).2⟩
  · intro s₁ o₁
    rw [hf, Prod.ext_iff]
  · constructor
    · intro ho
      by_contra hno
      rw [hnone hno] at ho
      exact ho rfl
    · intro hex
      obtain ⟨e, he⟩ := hex
      exact (hsome e he).1
  · intro ho
    by_cases hm : ∃ e, may e
    · obtain ⟨e, he⟩ := hm
      exact absurd ho (hsome e he).1
    · rw [hnone hm]
      rfl

/-- Only the event at `e`, the tasks queued on it and the caller are concerned; the other
events keep their fields and their order. -/
structure OnlyEvent (s s' : State) (t : Task) (e : Addr) : Prop where
  others : ∀ b, b ≠ e → s'.mem b = s.mem b
  order : s'.eventlist.erase e = s.eventlist.erase e
  id : (s'.mem e).id = (s.mem e).id
  attrs : (s'.mem e).attrs = (s.mem e).attrs
  inUse : ∀ b, b ≠ e → s'.inUse b = s.inUse b
  user : s'.user = s.user
  pcs : ∀ u, u ≠ t → s'.pc u = s.pc u
  entries : ∀ u, u ≠ t → u ∈ (s'.mem e).queue → u ∈ (s.mem e).queue
  tasks : ∀ u, u ≠ t → u ∉ (s.mem e).queue → s'.sched u = s.sched u

def State.awake (s : State) (u : Task) : Prop :=
  (s.sched u).state = .running ∧ (s.sched u).onRq = true

structure CloseEffect (s : State) (t : Task) (e : Addr) (s' : State) (o : Option Int) : Prop where
  only : OnlyEvent s s' t e
  removed : s'.eventlist = s.eventlist.erase e ∧ e ∉ s'.eventlist
  woken : ∀ u ∈ (s.mem e).queue, s'.awake u
  count : o = some (s.mem e).queue.length

structure WaitEffect (s : State) (t : Task) (e : Addr) (s' : State) (o : Option Int) : Prop where
  only : OnlyEvent s s' t e
  listed : s'.eventlist = s.eventlist
  nobody : ∀ u, u ≠ t → s'.sched u = s.sched u
  record : ∃ q, s'.mem e = { s.mem e with condition := 0, queue := q } ∧
    ((o = none ∧ q = t :: (s.mem e).queue ∧ s'.blockedOn t e) ∨
      (o = some 1 ∧ q = (s.mem e).queue ∧ (s.sched t).sigPending = true))

structure SigEffect (s : State) (t : Task) (e : Addr) (s' : State) (o : Option Int) : Prop where
  only : OnlyEvent s s' t e
  listed : s'.eventlist = s.eventlist
  record : ∃ v q, s'.mem e = { s.mem e with condition := v, queue := q } ∧
    ((s.mem e).queue = [] → v = (s.mem e).condition) ∧ ((s.mem e).queue ≠ [] → v = 1)
  woken : ∀ u ∈ (s.mem e).queue, s'.awake u
  count : o = some (s.mem e).queue.length

section
variable {s : State} {t : Task} {e : Addr}

theorem waitqueueActive_iff (v : Event) : waitqueueActive v = true ↔ v.queue ≠ [] := by
  simp [waitqueueActive]

theorem count_of_active (v : Event) :
    (if waitqueueActive v then countTasks v.queue 0 else 0) = v.queue.length := by
  by_cases hq : v.queue = []
  · simp [waitqueueActive, hq]
  · rw [if_pos ((waitqueueActive_iff v).mpr hq), countTasks_eq, Nat.zero_add]

theorem awake_of_wake {u : Task} {s' : State} (hl : LocalInv s)
    (h : s'.sched u = wake (s.sched u)) : s'.awake u := by
  rw [State.awake, h]
  exact ⟨wake_state _, (hl u).wake_onRq⟩

/-- The effects of close, wait and sig on the event at `e`. -/
def Effect.onEvent (e : Addr) : Effect → Prop
  | .closeSection a _ | .kfree a | .setCondition a _ | .prepareToWait a | .finishWait a
  | .wakeUpAll a => a = e
  | .skip | .schedule => True
  | _ => False

theorem onlyEvent_apply (hn : s.eventlist.Nodup) (f : Effect) (hf : f.onEvent e) :
    OnlyEvent s (apply s t f) t e := by
  have hwakes : ∀ b, f.wakes = some b → b = e := by
    intro b hb
    cases f with
    | closeSection a process => cases process <;> simp_all [Effect.wakes, Effect.onEvent]
    | _ => simp_all [Effect.wakes, Effect.onEvent]
  refine ⟨?_, ?_, ?_, ?_, ?_, ?_, ?_, ?_, ?_⟩
  · intro b hb
    refine apply_mem_of_target s t f ?_
    cases f <;> simp_all [Effect.target, Effect.onEvent, Ne.symm hb]
  · rw [apply_eventlist]
    cases f with
    | closeSection a process =>
      rw [show a = e from hf]
      exact List.erase_of_not_mem fun h => (hn.mem_erase_iff.mp h).1 rfl
    | openSection c a => exact hf.elim
    | _ => rfl
  · rw [apply_id]
    cases f <;> first | rfl | exact hf.elim
  · rw [apply_attrs]
    cases f <;> first | rfl | exact hf.elim
  · intro b hb
    rw [apply_inUse]
    cases f with
    | kfree a =>
      rw [show a = e from hf]
      exact Function.update_of_ne hb _ _
    | kmalloc a => exact hf.elim
    | _ => rfl
  · rw [apply_user]
    cases f <;> first | rfl | exact hf.elim
  · intro u _
    rw [apply_pc]
  · intro u hu hq
    rw [apply_queue] at hq
    cases f with
    | prepareToWait a =>
      dsimp only at hq
      split at hq
      · exact (List.mem_cons.mp hq).resolve_left hu
      · exact hq
    | finishWait a =>
      dsimp only at hq
      split at hq
      · exact List.mem_of_mem_erase hq
      · exact hq
    | openSection c a => exact hf.elim
    | _ =>
      dsimp only at hq
      split at hq
      · exact (wakeUpCommon_sublist _ _).mem hq
      · exact hq
  · intro u hu hq
    rw [apply_sched_of_ne s t f hu]
    cases hw : f.wakes with
    | none => rfl
    | some b =>
      rw [hwakes b hw]
      exact if_neg hq

theorem OnlyEvent.trans {s₁ s₂ : State} (h : OnlyEvent s s₁ t e) (h' : OnlyEvent s₁ s₂ t e) :
    OnlyEvent s s₂ t e where
  others := fun b hb => (h'.others b hb).trans (h.others b hb)
  order := h'.order.trans h.order
  id := h'.id.trans h.id
  attrs := h'.attrs.trans h.attrs
  inUse := fun b hb => (h'.inUse b hb).trans (h.inUse b hb)
  user := h'.user.trans h.user
  pcs := fun u hu => (h'.pcs u hu).trans (h.pcs u hu)
  entries := fun u hu hq => h.entries u hu (h'.entries u hu hq)
  tasks := fun u hu hq =>
    (h'.tasks u hu fun h₁ => hq (h.entries u hu h₁)).trans (h.tasks u hu hq)

theorem OnlyEvent.goto {s' : State} (h : OnlyEvent s s' t e) (p : Pc) :
    OnlyEvent s (s'.goto t p) t e where
  others := h.others
  order := h.order
  id := h.id
  attrs := h.attrs
  inUse := h.inUse
  user := h.user
  pcs := fun u hu => by simpa [hu] using h.pcs u hu
  entries := h.entries
  tasks := h.tasks

/-! ### The effects of the calls -/

theorem close_effect (hi : SeqInv s) (c : Cred) {i : Int32} (hv : isValidEventId i = false)
    (hr : readSection s.mem s.eventlist c i = some e) :
    (sysDoeventclose s t c i).2 ≠ some (-1) ∧
      CloseEffect s t e (sysDoeventclose s t c i).1 (sysDoeventclose s t c i).2 := by
  have hn := hi.list.nodup
  have hlist : (apply s t (.closeSection e (waitqueueActive (s.mem e)))).eventlist =
      s.eventlist.erase e := by rw [apply_eventlist]
  have hf : sysDoeventclose s t c i = returned (apply (apply s t
      (.closeSection e (waitqueueActive (s.mem e)))) t (.kfree e)) t (s.mem e).queue.length := by
    simp only [sysDoeventclose, hv, Bool.false_eq_true, if_false, hr, count_of_active]
    rfl
  rw [hf]
  refine ⟨by simp [returned], ?_, ⟨hlist, ?_⟩, ?_, rfl⟩
  · refine ((onlyEvent_apply hn (.closeSection e _) rfl).trans
      (onlyEvent_apply ?_ (.kfree e) rfl)).goto _
    rw [hlist]
    exact hn.erase e
  · intro hmem
    change e ∈ (apply s t (.closeSection e (waitqueueActive (s.mem e)))).eventlist at hmem
    rw [hlist] at hmem
    exact (hn.mem_erase_iff.mp hmem).1 rfl
  · intro u hu
    have hact : waitqueueActive (s.mem e) = true :=
      (waitqueueActive_iff _).mpr (List.ne_nil_of_mem hu)
    refine awake_of_wake hi.own ?_
    change (apply s t (.closeSection e (waitqueueActive (s.mem e)))).sched u = _
    rw [apply_sched_of_wakes s t _ (b := e) (by simp [Effect.wakes, hact]), if_pos hu]

theorem sysDoeventsig_empty (c : Cred) {i : Int32} (hv : isValidEventId i = false)
    (hr : readSection s.mem s.eventlist c i = some e) (hq : (s.mem e).queue = []) :
    sysDoeventsig s t c i = returned s t 0 := by
  simp [sysDoeventsig, hv, hr, waitqueueActive, hq]

theorem sysDoeventsig_waiters (c : Cred) {i : Int32} (hv : isValidEventId i = false)
    (hr : readSection s.mem s.eventlist c i = some e) (hq : (s.mem e).queue ≠ []) :
    sysDoeventsig s t c i = returned (apply (apply s t (.setCondition e 1)) t (.wakeUpAll e)) t
      (s.mem e).queue.length := by
  have hact : waitqueueActive (s.mem e) = true := (waitqueueActive_iff _).mpr hq
  simp only [sysDoeventsig, hv, Bool.false_eq_true, if_false, hr, hact, if_true, countTasks_eq,
    Nat.zero_add]
  rfl

theorem sig_effect (hi : SeqInv s) (c : Cred) {i : Int32} (hv : isValidEventId i = false)
    (hr : readSection s.mem s.eventlist c i = some e) :
    (sysDoeventsig s t c i).2 ≠ some (-1) ∧
      SigEffect s t e (sysDoeventsig s t c i).1 (sysDoeventsig s t c i).2 := by
  have hn := hi.list.nodup
  by_cases hq : (s.mem e).queue = []
  · rw [sysDoeventsig_empty c hv hr hq]
    refine ⟨by simp [returned], ?_, rfl, ?_, ?_, ?_⟩
    · exact OnlyEvent.goto ⟨fun _ _ => rfl, rfl, rfl, rfl, fun _ _ => rfl, rfl, fun _ _ => rfl,
        fun _ _ h => h, fun _ _ _ => rfl⟩ _
    · exact ⟨(s.mem e).condition, (s.mem e).queue, rfl, fun _ => rfl, fun h => absurd hq h⟩
    · intro u hu
      rw [hq] at hu
      cases hu
    · simp [returned, hq]
  · have hn₁ : (apply s t (.setCondition e 1)).eventlist.Nodup := hn
    have honly : OnlyEvent s (apply (apply s t (.setCondition e 1)) t (.wakeUpAll e)) t e :=
      (onlyEvent_apply hn (.setCondition e 1) rfl).trans (onlyEvent_apply hn₁ (.wakeUpAll e) rfl)
    have hcond : ((apply (apply s t (.setCondition e 1)) t (.wakeUpAll e)).mem e).condition = 1 := by
      rw [apply_condition]
      simp [apply_condition]
    rw [sysDoeventsig_waiters c hv hr hq]
    refine ⟨by simp [returned], honly.goto _, rfl, ?_, ?_, rfl⟩
    · exact ⟨1, ((apply (apply s t (.setCondition e 1)) t (.wakeUpAll e)).mem e).queue,
        Event.ext_parts honly.id honly.attrs hcond rfl, fun h => absurd h hq, fun _ => rfl⟩
    · intro u hu
      refine awake_of_wake hi.own ?_
      change (apply (apply s t (.setCondition e 1)) t (.wakeUpAll e)).sched u = _
      have hmem : u ∈ ((apply s t (.setCondition e 1)).mem e).queue := by
        rw [apply_queue]
        exact hu
      rw [apply_sched_of_wakes _ t _ (b := e) rfl, if_pos hmem]
      rfl

/-- The state `s₂` in which the caller `t` has queued itself on `e`, seen from the state `s`
in which it called wait. -/
structure Queued (s : State) (t : Task) (e : Addr) (s₂ : State) : Prop where
  only : OnlyEvent s s₂ t e
  list : s₂.eventlist = s.eventlist
  condition : (s₂.mem e).condition = 0
  queue : (s₂.mem e).queue = t :: (s.mem e).queue
  self : s₂.sched t = { s.sched t with linked := true, state := .interruptible }
  other : ∀ u, u ≠ t → s₂.sched u = s.sched u

theorem queued_prepareToWait (hn : s.eventlist.Nodup) (hunlinked : (s.sched t).linked = false) :
    Queued s t e (apply (apply s t (.setCondition e 0)) t (.prepareToWait e)) where
  only := by
    have hn₁ : (apply s t (.setCondition e 0)).eventlist.Nodup := hn
    exact (onlyEvent_apply hn (.setCondition e 0) rfl).trans
      (onlyEvent_apply hn₁ (.prepareToWait e) rfl)
  list := by
    rw [apply_eventlist]
    rfl
  condition := by
    rw [apply_condition]
    simp [apply_condition]
  queue := by
    have hl : ((apply s t (.setCondition e 0)).sched t).linked = false := hunlinked
    rw [apply_queue]
    simp only [hl, and_self, if_true]
    rw [apply_queue]
    rfl
  self := apply_sched_self ..
  other := by
    intro u hu
    rw [apply_sched_of_ne _ t _ hu]
    rfl

theorem Queued.finishWait {s₂ : State} (h : Queued s t e s₂) (hn : s.eventlist.Nodup)
    (hsig : (s.sched t).sigPending = true) :
    WaitEffect s t e (returned (apply s₂ t (.finishWait e)) t 1).1 (some 1) := by
  have honly := h.only.trans (onlyEvent_apply (h.list ▸ hn) (.finishWait e) rfl)
  refine ⟨honly.goto _, ?_, ?_, (s.mem e).queue, ?_, .inr ⟨rfl, rfl, hsig⟩⟩
  · change (apply s₂ t (.finishWait e)).eventlist = _
    rw [apply_eventlist]
    exact h.list
  · intro u hu
    change (apply s₂ t (.finishWait e)).sched u = _
    rw [apply_sched_of_ne _ t _ hu]
    exact h.other u hu
  · refine Event.ext_parts honly.id honly.attrs ?_ ?_
    · exact (apply_condition s₂ t (.finishWait e) e).trans h.condition
    · change ((apply s₂ t (.finishWait e)).mem e).queue = _
      rw [apply_queue]
      simp [h.self, h.queue]

theorem Queued.schedule {s₂ : State} (h : Queued s t e s₂) (hn : s.eventlist.Nodup)
    (hsig : (s.sched t).sigPending = false) :
    WaitEffect s t e ((apply s₂ t .schedule).goto t (.waitAsleep e)) none := by
  have honly := h.only.trans (onlyEvent_apply (h.list ▸ hn) .schedule trivial)
  refine ⟨honly.goto _, h.list, ?_, t :: (s.mem e).queue, ?_, .inl ⟨rfl, rfl, ?_⟩⟩
  · intro u hu
    change (apply s₂ t .schedule).sched u = _
    rw [apply_sched_of_ne _ t _ hu]
    exact h.other u hu
  · exact Event.ext_parts honly.id honly.attrs h.condition h.queue
  · refine ⟨by simp, ?_, ?_⟩ <;> rw [goto_sched, apply_sched_self, h.self] <;>
      simp [DoEvent.schedule, hsig]

theorem wait_effect (hi : SeqInv s) (ht : s.pc t = .user) (c : Cred) {i : Int32}
    (hv : isValidEventId i = false) (hr : readSection s.mem s.eventlist c i = some e) :
    (sysDoeventwait s t c i).2 ≠ some (-1) ∧
      WaitEffect s t e (sysDoeventwait s t c i).1 (sysDoeventwait s t c i).2 := by
  have hn := hi.list.nodup
  have hlocal : LocalOk .user (s.sched t) := ht ▸ hi.own t
  have hq : Queued s t e (apply (apply s t (.setCondition e 0)) t (.prepareToWait e)) :=
    queued_prepareToWait hn hlocal.2.2
  cases hsig : (s.sched t).sigPending with
  | true =>
    have hf : sysDoeventwait s t c i = returned (apply (apply (apply s t (.setCondition e 0)) t
        (.prepareToWait e)) t (.finishWait e)) t 1 := by
      simp only [sysDoeventwait, hv, Bool.false_eq_true, if_false, hr, hsig, if_true]
      rfl
    rw [hf]
    exact ⟨by simp [returned], hq.finishWait hn hsig⟩
  | false =>
    have hf : sysDoeventwait s t c i = ((apply (apply (apply s t (.setCondition e 0)) t
        (.prepareToWait e)) t .schedule).goto t (.waitAsleep e), none) := by
      simp only [sysDoeventwait, hv, Bool.false_eq_true, if_false, hr, hsig]
      rfl
    rw [hf]
    exact ⟨by simp, hq.schedule hn hsig⟩

end

end DoEvent
