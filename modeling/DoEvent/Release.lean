import DoEvent.Effects
import DoEvent.Reuse

/-!
# A signal and the tasks it releases

From a state in which every task is in user mode or asleep, one uninterrupted signal wakes
all waiters of its event. They put themselves back on the queue, see the condition set,
take themselves off again and return, each in five steps of its own, whatever the order.
-/

namespace DoEvent

open Transition

/-- Every task is in user mode or blocked inside `schedule()` of a wait. -/
def State.resting (s : State) : Prop := ∀ t, s.pc t = .user ∨ ∃ a, s.blockedOn t a

theorem holds_of_blockedOn {s : State} {t : Task} {a : Addr} (h : s.blockedOn t a) :
    s.holds t .waiting a := holds_of_pc h.1 rfl

/-- In a resting state the queue of a live event holds exactly the tasks blocked on it. -/
theorem SafeInv.mem_queue_iff {s : State} {e : Addr} (hi : SafeInv s) (hrest : s.resting)
    (he : e ∈ s.eventlist) (u : Task) : u ∈ (s.mem e).queue ↔ s.blockedOn u e := by
  constructor
  · intro hu
    obtain ⟨hw, _⟩ := hi.entries.queued u e (.inl he) hu
    rcases hrest u with hpc | ⟨a, hb⟩
    · exact absurd hpc (ne_user_of_holds hw)
    · rwa [(holds_unique hw (holds_of_blockedOn hb)).2]
  · intro hb
    have hl := hi.own u
    rw [hb.1] at hl
    exact hi.linked u e (holds_of_blockedOn hb) (hl.1 hb.2.2).1

/-! ### The way out of the wait loop -/

/-- A woken waiter on `e` on its way out. -/
def Leaves (e : Addr) : Pc → Sched → Prop
  | .waitAsleep a, p | .waitPrepare a, p => a = e ∧ p.onRq = true ∧ p.linked = false
  | .waitRetest a, p | .waitFinish a, p => a = e ∧ p.onRq = true ∧ p.linked = true
  | .ret r, p => r = 1 ∧ p.onRq = true ∧ p.linked = false
  | .user, p => p.onRq = true ∧ p.linked = false
  | _, _ => False

/-- The steps a woken waiter still has to make. -/
def Pc.left : Pc → ℕ
  | .waitAsleep _ => 5
  | .waitPrepare _ => 4
  | .waitRetest _ => 3
  | .waitFinish _ => 2
  | .ret _ => 1
  | _ => 0

theorem Leaves.onRq {e : Addr} {q : Pc} {p : Sched} (h : Leaves e q p) : p.onRq = true := by
  cases q <;> simp_all [Leaves]

theorem Leaves.left_le {e : Addr} {q : Pc} {p : Sched} (h : Leaves e q p) :
    q.left ≤ 5 ∧ (q.left = 0 ↔ q = .user) := by
  cases q <;> simp_all [Leaves, Pc.left]

/-- The effects of a waiter on its way out. -/
def Effect.leaves (e : Addr) (p : Sched) : Effect → Prop
  | .skip => True
  | .prepareToWait a => a = e ∧ p.linked = false
  | .finishWait a => a = e ∧ p.linked = true
  | _ => False

/-- One step of a waiter that sees the condition set. -/
theorem Leaves.flow {s : State} {u : Task} {e : Addr} {f : Effect} {p : Pc}
    (h : Leaves e (s.pc u) (s.sched u)) (hc : (s.mem e).condition = 1)
    (hf : Flow s u (s.pc u) f p) :
    f.leaves e (s.sched u) ∧ Leaves e p ((apply s u f).sched u) ∧ p.left + 1 = (s.pc u).left := by
  have hset : (s.mem e).condition ≠ 0 := by rw [hc]; decide
  rw [apply_sched_self]
  generalize hpc : s.pc u = q at h hf
  cases hf with
  | ret r => exact ⟨trivial, h.2, rfl⟩
  | waitAwake a | waitLeave a _ => exact ⟨trivial, h, rfl⟩
  | waitPrepare a => exact ⟨⟨h.1, h.2.2⟩, ⟨h.1, h.2.1, rfl⟩, rfl⟩
  | waitCommit a h0 =>
    obtain ⟨rfl, _⟩ := h
    exact absurd h0 hset
  | waitFinish a => exact ⟨⟨h.1, h.2.2⟩, ⟨rfl, h.2.1, rfl⟩, rfl⟩
  | _ => exact h.elim

theorem Leaves.enabled {s : State} {u : Task} {e : Addr} (h : Leaves e (s.pc u) (s.sched u))
    (hpc : s.pc u ≠ .user) : ∃ s', step s (.run u) = some s' := by
  have hrq := h.onRq
  have hstep : ∀ {q f p}, s.pc u = q → Flow s u q f p → ∃ s', step s (.run u) = some s' :=
    fun hq hf => ⟨_, step_of_flow hrq hq hf⟩
  cases hq : s.pc u with
  | user => exact absurd hq hpc
  | ret r => exact hstep hq (.ret r)
  | waitAsleep a => exact hstep hq (.waitAwake a)
  | waitPrepare a => exact hstep hq (.waitPrepare a)
  | waitRetest a =>
    by_cases hc : (s.mem a).condition = 0
    · exact hstep hq (.waitCommit a hc)
    · exact hstep hq (.waitLeave a hc)
  | waitFinish a => exact hstep hq (.waitFinish a)
  | _ =>
    rw [hq] at h
    exact h.elim

/-! ### All waiters of a signal, in any order -/

/-- In `s` task `t` has called sig on `e`, whose waiters were `l`: what holds until the last
of them has returned. -/
structure Draining (s : State) (t : Task) (e : Addr) (l : List Task) (m : State) : Prop where
  list : m.eventlist = s.eventlist
  inUse : m.inUse = s.inUse
  user : m.user = s.user
  events : ∀ b, b ≠ e → m.mem b = s.mem b
  record : m.mem e = { s.mem e with condition := 1, queue := (m.mem e).queue }
  caller : m.pc t = .ret l.length ∧ m.sched t = s.sched t
  others : ∀ u, u ≠ t → u ∉ l → m.pc u = s.pc u ∧ m.sched u = s.sched u
  queue : ∀ u, u ∈ (m.mem e).queue ↔ u ∈ l ∧ (m.sched u).linked = true
  nodup : (m.mem e).queue.Nodup
  leaving : ∀ u ∈ l, Leaves e (m.pc u) (m.sched u)

/-- The steps of the tasks of `l`, and no others. -/
def StepsOf (l : List Task) (_ : State) (x : Action) : Prop := ∃ u ∈ l, x = .run u

section
variable {s m m' : State} {t u : Task} {e : Addr} {l : List Task} {f : Effect}

theorem Effect.leaves.mem (hf : f.leaves e (m.sched u)) :
    (∀ b, b ≠ e → (apply m u f).mem b = m.mem b) ∧
      (apply m u f).mem e = { m.mem e with queue := ((apply m u f).mem e).queue } := by
  have htarget : ∀ b, b ≠ e → f.target ≠ some b := by
    intro b hb htb
    cases f with
    | prepareToWait a | finishWait a =>
      cases htb
      exact hb hf.1
    | skip => cases htb
    | _ => exact hf
  refine ⟨fun b hb => apply_mem_of_target m u f (htarget b hb), Event.ext_parts ?_ ?_ ?_ rfl⟩
  · rw [apply_id]
    cases f <;> first | rfl | exact hf.elim
  · rw [apply_attrs]
    cases f <;> first | rfl | exact hf.elim
  · rw [apply_condition]
    cases f <;> first | rfl | exact hf.elim

theorem Effect.leaves.frame (hf : f.leaves e (m.sched u)) :
    (apply m u f).eventlist = m.eventlist ∧ (apply m u f).inUse = m.inUse ∧
      (apply m u f).user = m.user ∧ ∀ v, v ≠ u → (apply m u f).sched v = m.sched v := by
  rw [apply_eventlist, apply_inUse, apply_user]
  have hsched : f.wakes = none := by cases f <;> first | rfl | exact hf.elim
  refine ⟨?_, ?_, ?_, fun v hv => by rw [apply_sched_of_ne m u f hv, hsched]⟩ <;>
    cases f <;> first | rfl | exact hf.elim

/-- The queue of `e` gains or loses the stepping task as its entry is linked or unlinked. -/
theorem Effect.leaves.queue (hf : f.leaves e (m.sched u)) (hn : (m.mem e).queue.Nodup)
    (hq : u ∈ (m.mem e).queue ↔ (m.sched u).linked = true) :
    ((apply m u f).mem e).queue.Nodup ∧ ∀ v, v ∈ ((apply m u f).mem e).queue ↔
      if v = u then ((apply m u f).sched u).linked = true else v ∈ (m.mem e).queue := by
  rw [apply_queue, apply_sched_self]
  cases f with
  | skip =>
    refine ⟨hn, fun v => ?_⟩
    by_cases hv : v = u
    · subst hv
      simpa [Effect.wakes] using hq
    · simp [hv, Effect.wakes]
  | prepareToWait a =>
    obtain ⟨rfl, hl⟩ := hf
    have hu : u ∉ (m.mem a).queue := by
      rw [hq, hl]
      exact Bool.false_ne_true
    refine ⟨by simp [hl, hu, hn], fun v => ?_⟩
    by_cases hv : v = u <;> simp [hv, hl]
  | finishWait a =>
    obtain ⟨rfl, hl⟩ := hf
    refine ⟨by simp [hl, hn.erase u], fun v => ?_⟩
    by_cases hv : v = u <;> simp [hv, hl, hn.mem_erase_iff]
  | _ => exact hf.elim

/-- One step of a released waiter, and what is left to do for it. -/
theorem Draining.step (h : Draining s t e l m) (ht : t ∉ l) (hu : u ∈ l)
    (hstep : step m (.run u) = some m') :
    Draining s t e l m' ∧ (m'.pc u).left + 1 = (m.pc u).left ∧ ∀ v, v ≠ u → m'.pc v = m.pc v := by
  obtain ⟨f, p, hf, rfl⟩ := step_run hstep
  have hcond : (m.mem e).condition = 1 := by rw [h.record]
  obtain ⟨heff, hp, hleft⟩ := (h.leaving u hu).flow hcond hf
  obtain ⟨hmem, hrec⟩ := heff.mem
  obtain ⟨hlist, hinUse, huser, hsched⟩ := heff.frame
  have hqu : u ∈ (m.mem e).queue ↔ (m.sched u).linked = true := by simp [h.queue u, hu]
  obtain ⟨hnodup, hqueue⟩ := heff.queue h.nodup hqu
  have hpcs : ∀ v, v ≠ u → ((apply m u f).goto u p).pc v = m.pc v := fun v hv => by simp [hv]
  have htu : t ≠ u := fun htu => ht (htu ▸ hu)
  refine ⟨⟨?_, ?_, ?_, ?_, ?_, ?_, ?_, ?_, hnodup, ?_⟩, by simpa using hleft, hpcs⟩
  · exact hlist.trans h.list
  · exact hinUse.trans h.inUse
  · exact huser.trans h.user
  · exact fun b hb => (hmem b hb).trans (h.events b hb)
  · rw [goto_mem, hrec, h.record]
  · rw [hpcs t htu, goto_sched, hsched t htu]
    exact h.caller
  · intro v hvt hvl
    have hvu : v ≠ u := fun hvu => hvl (hvu ▸ hu)
    rw [hpcs v hvu, goto_sched, hsched v hvu]
    exact h.others v hvt hvl
  · intro v
    rw [goto_mem, goto_sched, hqueue v]
    by_cases hvu : v = u
    · simp [hvu, hu]
    · rw [if_neg hvu, h.queue v, hsched v hvu]
  · intro v hv
    rw [goto_sched]
    by_cases hvu : v = u
    · subst hvu
      simpa using hp
    · rw [hpcs v hvu, hsched v hvu]
      exact h.leaving v hv

/-- Each released waiter makes its five steps and no more. -/
theorem Draining.run {ys : List Action} (hrun : Run DoEvent.step (StepsOf l) m ys m') (ht : t ∉ l)
    (h : Draining s t e l m) :
    Draining s t e l m' ∧ ∀ u ∈ l, ys.count (.run u) + (m'.pc u).left = (m.pc u).left := by
  induction hrun with
  | nil m => exact ⟨h, fun u _ => by simp⟩
  | cons hok hst _ ih =>
    obtain ⟨v, hv, rfl⟩ := hok
    obtain ⟨h', hleft, hpcs⟩ := h.step ht hv hst
    obtain ⟨hend, hcount⟩ := ih h'
    refine ⟨hend, fun u hu => ?_⟩
    have hc := hcount u hu
    by_cases huv : u = v
    · subst huv
      rw [List.count_cons_self]
      omega
    · have hne : (Action.run v == Action.run u) = false := by
        simpa using fun h : v = u => huv h.symm
      rw [hpcs u huv] at hc
      rw [List.count_cons, hne]
      simpa using hc

/-- The returns to user mode, with the value. -/
def returns (s : State) : Action → List (Task × Int)
  | .run t => match s.pc t with
    | .ret r => [(t, r)]
    | _ => []
  | _ => []

/-- The log of the returns of the waiters `l`: each that is back in user mode, once, with 1. -/
structure ReturnLog (l : List Task) (log : List (Task × Int)) (m : State) : Prop where
  nodup : log.Nodup
  mem : ∀ v r, (v, r) ∈ log ↔ v ∈ l ∧ r = 1 ∧ m.pc v = .user

theorem ReturnLog.step {log : List (Task × Int)} (hlog : ReturnLog l log m)
    (h : Draining s t e l m) (ht : t ∉ l) (hu : u ∈ l) (hstep : step m (.run u) = some m') :
    ReturnLog l (log ++ returns m (.run u)) m' := by
  obtain ⟨h', hleft, hpcs⟩ := h.step ht hu hstep
  have hdone := (h'.leaving u hu).left_le.2
  have hl := h.leaving u hu
  by_cases hr : m.pc u = .ret 1
  · have huser : m'.pc u = .user := by
      rw [hr] at hleft
      exact hdone.mp (Nat.succ.inj hleft)
    have hnew : (u, 1) ∉ log := fun hin => by
      have := ((hlog.mem u 1).mp hin).2.2
      rw [hr] at this
      cases this
    simp only [returns, hr]
    refine ⟨by simpa [← List.concat_eq_append] using hlog.nodup.concat hnew, fun v r => ?_⟩
    rw [List.mem_append, hlog.mem v r, List.mem_singleton, Prod.mk.injEq]
    by_cases hv : v = u
    · subst hv
      simp [hr, huser, hu]
    · simp [hv, hpcs v hv]
  · have hnone : returns m (.run u) = [] := by
      simp only [returns]
      split
      next r hpc =>
        rw [hpc] at hl
        exact absurd (by rw [hpc, hl.1]) hr
      · rfl
    have hstays : m'.pc u ≠ .user := fun hpc => by
      rw [hpc] at hleft
      cases hq : m.pc u <;> simp_all [Pc.left, Leaves]
    have hbefore : m.pc u ≠ .user := fun hpc => by
      rw [hpc] at hleft
      cases hleft
    rw [hnone, List.append_nil]
    refine ⟨hlog.nodup, fun v r => ?_⟩
    rw [hlog.mem v r]
    by_cases hv : v = u
    · subst hv
      simp [hstays, hbefore]
    · rw [hpcs v hv]

theorem Draining.returnLog {ys : List Action} (hrun : Run DoEvent.step (StepsOf l) m ys m')
    (ht : t ∉ l) (h : Draining s t e l m) (hstart : ∀ u ∈ l, m.pc u ≠ .user) :
    ReturnLog l (observe DoEvent.step returns m ys) m' := by
  have hinit : ReturnLog l [] m := ⟨List.nodup_nil, fun v r => by
    simp only [List.not_mem_nil, false_iff]
    rintro ⟨hv, _, hpc⟩
    exact hstart v hv hpc⟩
  have hend := hrun.observed returns (fun log m => Draining s t e l m ∧ ReturnLog l log m)
    ⟨h, hinit⟩ fun log m x m' hi hok hst => by
      obtain ⟨v, hv, rfl⟩ := hok
      exact ⟨(hi.1.step ht hv hst).1, hi.2.step hi.1 ht hv hst⟩
  simpa using hend.2

/-- The state right after the signal. -/
theorem draining_signalled (hi : SafeInv s) (hrest : s.resting) (he : e ∈ s.eventlist)
    (hl : ∀ u, u ∈ l ↔ s.blockedOn u e) (ht : s.pc t = .user) :
    Draining s t e l ((apply (apply s t (.setCondition e 1)) t (.wakeUpAll e)).goto t
      (.ret l.length)) := by
  have hqueue := hi.mem_queue_iff hrest he
  have hentries : EntriesOn s.tracked (apply s t (.setCondition e 1)) := by
    refine ⟨fun u a ha hu => ?_, fun a ha => ?_⟩
    · rw [apply_queue] at hu
      exact hi.entries.queued u a ha hu
    · rw [apply_queue]
      exact hi.entries.nodup a ha
  have hq₁ : ((apply s t (.setCondition e 1)).mem e).queue = (s.mem e).queue := by rw [apply_queue]; rfl
  have hmem := hentries.mem_wakes (t := t) (e := .wakeUpAll e) (.inl he) rfl
  have hsched := apply_sched_of_wakes (apply s t (.setCondition e 1)) t (.wakeUpAll e) rfl
  have hwoken : ∀ u ∈ l, (apply (apply s t (.setCondition e 1)) t (.wakeUpAll e)).sched u =
      { s.sched u with state := .running, onRq := true, linked := false } := by
    intro u hu
    have hb := (hl u).mp hu
    rw [hsched u, hq₁, if_pos ((hqueue u).mpr hb)]
    exact wake_asleep _ hb.2.1 hb.2.2
  have hkept : ∀ u, u ∉ l →
      (apply (apply s t (.setCondition e 1)) t (.wakeUpAll e)).sched u = s.sched u := by
    intro u hu
    rw [hsched u, hq₁, if_neg fun h => hu ((hl u).mpr ((hqueue u).mp h))]
    rfl
  have htl : t ∉ l := fun h => by
    have := ((hl t).mp h).1
    rw [ht] at this
    cases this
  have hnone : ∀ u, u ∉ ((apply (apply s t (.setCondition e 1)) t (.wakeUpAll e)).mem e).queue := by
    intro u hu
    obtain ⟨hu₁, hlinked⟩ := (hmem u).mp hu
    rw [hq₁] at hu₁
    rw [hwoken u ((hl u).mpr ((hqueue u).mp hu₁))] at hlinked
    cases hlinked
  constructor
  case list => rfl
  case inUse => rfl
  case user => rfl
  case events =>
    intro b hb
    rw [goto_mem, apply_mem_of_target, apply_mem_of_target] <;>
      simpa [Effect.target] using Ne.symm hb
  case record =>
    refine Event.ext_parts ?_ ?_ ?_ rfl
    · simp [apply_id]
    · rw [goto_mem, apply_attrs, apply_attrs]
      rfl
    · simp [apply_condition]
  case caller => exact ⟨by simp, hkept t htl⟩
  case others => exact fun u hut hul => ⟨by simp [hut], hkept u hul⟩
  case queue =>
    intro u
    rw [goto_mem, goto_sched]
    constructor
    · exact fun hu => absurd hu (hnone u)
    · rintro ⟨hu, hlinked⟩
      rw [hwoken u hu] at hlinked
      cases hlinked
  case nodup =>
    rw [goto_mem, List.eq_nil_iff_forall_not_mem.mpr hnone]
    exact List.nodup_nil
  case leaving =>
    intro u hu
    have hut : u ≠ t := fun h => htl (h ▸ hu)
    rw [goto_sched, hwoken u hu, goto_pc, Function.update_of_ne hut, apply_pc, apply_pc,
      ((hl u).mp hu).1]
    exact ⟨rfl, rfl, rfl⟩

end

/-- An uninterrupted signal from a resting state returns the number of tasks blocked on the
event. Without waiters it changes nothing; otherwise the waiters, in any order of their
steps, return 1 after five steps each and are never off the run queue again, and nothing
else changes. -/
theorem signal_releases_waiters (mem : Addr → Event) (user : Task → UserMem) (xs : List Action)
    (s : State) (hrun : Run step SafeStep (doeventInit mem user) xs s) (hrest : s.resting)
    (e : Addr) (l : List Task) (hl : l.Nodup) (hblocked : ∀ u, u ∈ l ↔ s.blockedOn u e)
    (t : Task) (ht : s.pc t = .user) (c : Cred) (i : Int32) (hmay : MaySignal s c i e) :
    ∃ s₁, (∀ s' o, CallEnds s t c (.doeventsig i) s' o ↔ s' = s₁ ∧ o = some (l.length : Int)) ∧
      (l = [] → s₁ = s.goto t (.ret 0)) ∧
      (l ≠ [] → ∀ ys m, Run step (StepsOf l) s₁ ys m →
        Draining s t e l m ∧ ReturnLog l (observe step returns s₁ ys) m ∧
        (∀ u ∈ l, (m.sched u).onRq = true ∧
          (m.pc u ≠ .user → ∃ m', step m (.run u) = some m') ∧
          ys.count (.run u) ≤ 5 ∧ (ys.count (.run u) = 5 ↔ m.pc u = .user)) ∧
        ((∀ u ∈ l, m.pc u = .user) → (m.mem e).queue = [] ∧ (m.mem e).condition = 1)) := by
  have hi := safeInv_run hrun (doeventInit_safeInv mem user)
  have he := hmay.1
  have hqueue := hi.mem_queue_iff hrest he
  have hperm : (s.mem e).queue.Perm l :=
    (List.perm_ext_iff_of_nodup (hi.entries.nodup e (.inl he)) hl).mpr fun u => by
      rw [hqueue u, hblocked u]
  have hrq := onRq_of_user hi.own ht
  have hv : isValidEventId i = false := hmay.2.1 ▸ hi.ids.valid he
  have hr := hi.ids.readSection_iff.mpr hmay
  have hends : ∀ s' o, CallEnds s t c (.doeventsig i) s' o ↔ (s', o) = sysDoeventsig s t c i :=
    fun s' o => (callEnds_iff ht).trans (soloEnds_sig hrq c i)
  by_cases hnil : l = []
  · refine ⟨s.goto t (.ret 0), fun s' o => ?_, fun _ => rfl, fun hne => absurd hnil hne⟩
    rw [hends, sysDoeventsig_empty c hv hr (hnil ▸ hperm).eq_nil, hnil, returned, Prod.mk.injEq]
    rfl
  · have hne : (s.mem e).queue ≠ [] := fun hq => hnil (hq ▸ hperm).symm.eq_nil
    have hstart := draining_signalled (t := t) hi hrest he hblocked ht
    have htl : t ∉ l := fun h => by
      have hasleep := ((hblocked t).mp h).1
      rw [ht] at hasleep
      cases hasleep
    refine ⟨(apply (apply s t (.setCondition e 1)) t (.wakeUpAll e)).goto t (.ret l.length),
      fun s' o => ?_, fun h => absurd h hnil, fun _ ys m hys => ?_⟩
    · rw [hends, sysDoeventsig_waiters c hv hr hne, hperm.length_eq, returned, Prod.mk.injEq]
    · have hasleep : ∀ u ∈ l, u ≠ t ∧ s.pc u = .waitAsleep e := fun u hu =>
        ⟨fun h => htl (h ▸ hu), ((hblocked u).mp hu).1⟩
      obtain ⟨hend, hcount⟩ := hstart.run hys htl
      refine ⟨hend, hstart.returnLog hys htl ?_, ?_, ?_⟩
      · intro u hu
        simp [hasleep u hu]
      · intro u hu
        have hleaves := hend.leaving u hu
        have hc := hcount u hu
        have hfive : (((apply (apply s t (.setCondition e 1)) t (.wakeUpAll e)).goto t
            (.ret l.length)).pc u).left = 5 := by simp [hasleep u hu, Pc.left]
        refine ⟨hleaves.onRq, hleaves.enabled, by omega, ?_⟩
        rw [← hleaves.left_le.2]
        omega
      · intro hall
        refine ⟨List.eq_nil_iff_forall_not_mem.mpr fun u hu => ?_, by rw [hend.record]⟩
        obtain ⟨hul, hlinked⟩ := (hend.queue u).mp hu
        have hleaves := hend.leaving u hul
        rw [hall u hul] at hleaves
        rw [hleaves.2] at hlinked
        cases hlinked

def safeStepTest (k : Task) (s : State) (x : Action) : Bool :=
  decide (¬ IdsExhausted s) && unlinksAloneTest k s x && noReuseTest k s x

theorem safeStep_of_test {k : Task} {s : State} {x : Action} (hi : s.idleFrom k)
    (h : safeStepTest k s x = true) : SafeStep s x := by
  obtain ⟨h, hheld⟩ := Bool.and_eq_true_iff.mp h
  obtain ⟨hids, halone⟩ := Bool.and_eq_true_iff.mp h
  exact ⟨noReuse_of_test hi hheld, unlinksAlone_of_test hi halone, fun _ _ => of_decide_eq_true hids⟩

def restingTest (k : Task) (s : State) : Bool :=
  (List.range k).all fun t => match s.pc t with
    | .user => true
    | .waitAsleep a => decide (s.blockedOn t a)
    | _ => false

theorem resting_of_test {k : Task} {s : State} (hi : s.idleFrom k) (h : restingTest k s = true) :
    s.resting := by
  intro t
  rcases hi.test h t with huser | htest
  · exact .inl huser
  · split at htest
    next hpc => exact .inl hpc
    next a _ => exact .inr ⟨a, of_decide_eq_true htest⟩
    · cases htest

theorem mem_blocked_iff {k : Task} {s : State} {e : Addr} (hi : s.idleFrom k) (t : Task) :
    t ∈ (List.range k).filter (fun t => decide (s.blockedOn t e)) ↔ s.blockedOn t e := by
  rw [List.mem_filter, List.mem_range, decide_eq_true_eq, and_iff_right_iff_imp]
  intro hb
  by_contra hk
  rw [State.blockedOn, hi t (Nat.le_of_not_lt hk)] at hb
  cases hb.1

/-- Tasks 1 and 2 sleep on event 0. -/
def twoSleepers : List Action :=
  opens 0 rootCred 1 ++ [.call 1 rootCred (.doeventwait 0), .call 2 rootCred (.doeventwait 0)] ++
    runs 1 7 ++ runs 2 7

theorem signal_releases_waiters_two :
    ∃ s s₁, Run step SafeStep boot twoSleepers s ∧ s.blockedOn 1 1 ∧ s.blockedOn 2 1 ∧
      CallEnds s 0 rootCred (.doeventsig 0) s₁ (some 2) := by
  obtain ⟨s, hr, hi, ht⟩ := run_of_idle_test SafeStep twoSleepers 3 (safeStepTest 3)
    (fun s => restingTest 3 s && decide (s.blockedOn 1 1 ∧ s.blockedOn 2 1 ∧ s.pc 0 = .user ∧
      MaySignal s rootCred 0 1 ∧
      ((List.range 3).filter fun t => decide (s.blockedOn t 1)).length = 2))
    (by decide) (boot_idleFrom 3) fun _ _ => safeStep_of_test
  rw [Bool.and_eq_true, decide_eq_true_eq] at ht
  obtain ⟨hrest, hb₁, hb₂, hpc, hmay, hlen⟩ := ht
  obtain ⟨s₁, hends, _⟩ := signal_releases_waiters bootMem bootUser twoSleepers s hr
    (resting_of_test hi hrest) 1 _ (List.nodup_range.filter _) (mem_blocked_iff hi) 0 hpc rootCred 0 hmay
  exact ⟨s, s₁, hr, hb₁, hb₂, (hends s₁ _).mpr ⟨rfl, by rw [hlen]; rfl⟩⟩

/-- Task 1 sleeps on event 0 and task 2 has looked it up when task 0 closes it; task 2 goes
to sleep on the freed record, task 0 opens a new event in the same place, and task 1 goes
back to sleep, now on the new event's queue. -/
def strangersRun : List Action :=
  opens 0 rootCred 1 ++ opens 0 rootCred 2 ++
    [.call 1 rootCred (.doeventwait 0), .call 2 rootCred (.doeventwait 0)] ++ runs 1 7 ++ runs 2 1 ++
    [.call 0 rootCred (.doeventclose 0)] ++ runs 0 5 ++ runs 2 6 ++ opens 0 rootCred 1 ++ runs 1 5

/-- Two tasks sleep on the record of event 2, neither of which has called wait on it; the
signal of event 2 reports one. -/
theorem signal_miscounts_strangers :
    ¬ ∀ mem user xs s, Run step AnyStep (doeventInit mem user) xs s → s.resting →
      ∀ e (l : List Task), l.Nodup → (∀ u, u ∈ l ↔ s.blockedOn u e) →
      ∀ t c i, s.pc t = .user → MaySignal s c i e →
      ∀ s' o, CallEnds s t c (.doeventsig i) s' o → o = some (l.length : Int) := by
  intro hclaim
  obtain ⟨s, hr, hi, ht⟩ := run_of_idle_test AnyStep strangersRun 3 (fun _ _ => true)
    (fun s => restingTest 3 s && decide (s.pc 0 = .user ∧ (s.sched 0).onRq = true ∧
      MaySignal s rootCred 2 1 ∧ (sysDoeventsig s 0 rootCred 2).2 = some 1 ∧
      ((List.range 3).filter fun t => decide (s.blockedOn t 1)).length = 2))
    (by decide) (boot_idleFrom 3) fun _ _ _ _ => trivial
  rw [Bool.and_eq_true, decide_eq_true_eq] at ht
  obtain ⟨hrest, hpc, hrq, hmay, hret, hlen⟩ := ht
  have hends : CallEnds s 0 rootCred (.doeventsig 2) (sysDoeventsig s 0 rootCred 2).1
      (sysDoeventsig s 0 rootCred 2).2 :=
    (callEnds_iff hpc).mpr ((soloEnds_sig hrq rootCred 2).mpr rfl)
  have hcount := hclaim bootMem bootUser strangersRun s hr (resting_of_test hi hrest) 1 _
    (List.nodup_range.filter _) (mem_blocked_iff hi) 0 rootCred 2 hpc hmay _ _ hends
  rw [hret, hlen] at hcount
  exact absurd hcount (by decide)

end DoEvent
