import DoEvent.Effects
import Mathlib.Algebra.Order.Ring.Nat

/-!
# Open followed by close

Closing the event that has just been opened takes back everything that open did, apart
from what the freed record now contains. The id is one more than that of the last event.
A caller that opens a new event before it closes the old one holds two events at a time
and raises the last id by one with each turn, so the end of the range is reached.
-/

namespace DoEvent

open Transition

/-- Calls one at a time, and no open numbers its event while the last id is 2^31-1. -/
def RoomStep (s : State) (x : Action) : Prop :=
  OneAtATime s x ∧ ∀ a, Creates s x a → ¬ IdsExhausted s

theorem roomStep_run {s s' : State} {xs : List Action} (h : Run step RoomStep s xs s')
    (hs : SeqInv s) (hi : IdsInv s) : SeqInv s' ∧ IdsInv s' :=
  h.invariant (fun s => SeqInv s ∧ IdsInv s) ⟨hs, hi⟩ fun _ _ _ hinv hok hstep =>
    ⟨hinv.1.step hok.1 hstep,
      hinv.2.step_of_fresh (fun t a ha => (hinv.1.list.owned t a (.inl ha)).2) hok.2 hstep⟩

/-- Task `t` calls open, `kmalloc` answers with `a`, and the task runs alone to its return. -/
def OpenEnds (s : State) (t : Task) (c : Cred) (a : Addr) (s' : State) (o : Option Int) : Prop :=
  ∃ m m', step s (.call t c .doeventopen) = some m ∧ step m (.kmalloc t (some a)) = some m' ∧
    SoloEnds t m' s' o

/-- The state after the write section of an open that got the address `a`. -/
def opened (s : State) (t : Task) (c : Cred) (a : Addr) : State :=
  apply (apply s t (.kmalloc a)) t (.openSection c a)

section
variable {s : State} {t : Task} {c : Cred} {a : Addr}

theorem openEnds_iff (ht : s.pc t = .user) (hrq : (s.sched t).onRq = true) (hfree : s.inUse a = false)
    {s' : State} {o : Option Int} : OpenEnds s t c a s' o ↔
      (s', o) = returned (opened s t c a) t ((s.mem (lastEvent s)).id + 1).toInt := by
  have hcall : step s (.call t c .doeventopen) = some (s.goto t (.openAlloc c)) := by
    simp [step, ht, entry]
  have halloc : step (s.goto t (.openAlloc c)) (.kmalloc t (some a)) =
      some ((apply s t (.kmalloc a)).goto t (.openWrite c a)) := by
    simp [step, kmallocStep, hfree, apply_goto]
  have hsolo : SoloEnds t ((apply s t (.kmalloc a)).goto t (.openWrite c a)) s' o ↔
      (s', o) = sysDoeventopen s t c (some a) := soloEnds_opened hrq c a
  have hret : sysDoeventopen s t c (some a) =
      returned (opened s t c a) t ((s.mem (lastEvent s)).id + 1).toInt := by
    simp [sysDoeventopen, opened, apply, openSection, lastEvent]
  rw [hret] at hsolo
  rw [← hsolo]
  constructor
  · intro h
    obtain ⟨m, m', hm, hm', hend⟩ := h
    rw [hcall] at hm
    cases hm
    rw [halloc] at hm'
    cases hm'
    exact hend
  · intro hend
    exact ⟨_, _, hcall, halloc, hend⟩

theorem OpenEnds.callEnds {s' : State} {o : Option Int} (h : OpenEnds s t c a s' o) :
    CallEnds s t c .doeventopen s' o := by
  obtain ⟨m, m', hcall, halloc, ys, hys, hend⟩ := h
  exact ⟨m, hcall, _, .cons (.inr ⟨_, rfl⟩) halloc hys, hend⟩

theorem opened_eventlist : (opened s t c a).eventlist = s.eventlist ++ [a] := rfl

theorem opened_mem : (opened s t c a).mem a =
    ⟨(s.mem (lastEvent s)).id + 1, c.euid, c.egid, 1, 1, 0, []⟩ := by
  simp [opened, apply, openSection, lastEvent]

theorem opened_mem_of_ne {b : Addr} (h : b ≠ a) : (opened s t c a).mem b = s.mem b :=
  Function.update_of_ne h _ _

theorem returned_step (s : State) (r : Int) (hrq : (s.sched t).onRq = true) :
    step (s.goto t (.ret r)) (.run t) = some (s.goto t .user) := by
  simp [step, hrq, next, apply]

theorem sysDoeventclose_empty {e : Addr} {i : Int32} (hv : isValidEventId i = false)
    (hr : readSection s.mem s.eventlist c i = some e) (hq : (s.mem e).queue = []) :
    sysDoeventclose s t c i = returned { s with
      eventlist := s.eventlist.erase e, inUse := Function.update s.inUse e false } t 0 := by
  simp [sysDoeventclose, hv, hr, waitqueueActive, hq, closeSection]

theorem validId_of_nonneg {i : Int32} (h : 0 ≤ i.toInt) : isValidEventId i = false := by
  have hle : (0 : Int32) ≤ i := Int32.le_iff_toInt_le.mpr h
  simpa [isValidEventId] using hle

theorem callEnds_close (ht : s.pc t = .user) (hrq : (s.sched t).onRq = true) {i : Int32} {s' : State}
    {o : Option Int} : CallEnds s t c (.doeventclose i) s' o ↔ (s', o) = sysDoeventclose s t c i :=
  (callEnds_iff ht).trans (soloEnds_close hrq c i)

/-- The close of the event just opened finds it, behind all the others, and is permitted. -/
theorem opened_readSection {p : Pc} (hold : ∀ b ∈ s.eventlist, b ≠ a)
    (hnew : ∀ b ∈ s.eventlist, (s.mem b).id ≠ (s.mem (lastEvent s)).id + 1) :
    readSection ((opened s t c a).goto t p).mem ((opened s t c a).goto t p).eventlist c
      ((s.mem (lastEvent s)).id + 1) = some a := by
  have hmiss : s.eventlist.find? (fun b => ((opened s t c a).mem b).id = (s.mem (lastEvent s)).id + 1) =
      none := by
    rw [List.find?_eq_none]
    intro b hb
    rw [opened_mem_of_ne (hold b hb)]
    simpa using hnew b hb
  have hfound : searchLoop (opened s t c a).mem ((s.mem (lastEvent s)).id + 1) none
      (s.eventlist ++ [a]) = some a := by
    rw [searchLoop_null, List.find?_append, hmiss]
    simp [opened_mem]
  rw [goto_mem, goto_eventlist, opened_eventlist, readSection, hfound]
  simp [opened_mem, validateEvent]

end

/-- Open returns a new id that is not negative, and an immediate close of that id by the
same caller returns 0 and leaves the list and its events as they were, as long as no open
numbers its event while the last id is 2^31-1. -/
theorem open_close_identity (mem : Addr → Event) (user : Task → UserMem) (xs : List Action)
    (s : State) (hrun : Run step RoomStep (doeventInit mem user) xs s) (t : Task) (ht : s.pc t = .user)
    (c : Cred) (a : Addr) (hfree : s.inUse a = false) (hroom : ¬ IdsExhausted s) :
    ∃ i s₁ s₂ s₃,
      (∀ s' o, OpenEnds s t c a s' o ↔ s' = s₁ ∧ o = some (Int32.toInt i)) ∧
      0 ≤ i.toInt ∧ (∀ b, b ∈ s₁.eventlist ∧ (s₁.mem b).id = i ↔ b = a) ∧
      step s₁ (.run t) = some s₂ ∧
      (∀ s' o, CallEnds s₂ t c (.doeventclose i) s' o ↔ s' = s₃ ∧ o = some 0) ∧
      s₃.eventlist = s.eventlist ∧ (∀ b ∈ s.eventlist, s₃.mem b = s.mem b) ∧ s₃.inUse = s.inUse := by
  obtain ⟨hs, hi⟩ := roomStep_run hrun (doeventInit_seqInv mem user) (doeventInit_idsInv mem user)
  have hrq := onRq_of_user hs.own ht
  have hold : ∀ b ∈ s.eventlist, b ≠ a := by
    rintro b hb rfl
    rw [hs.list.used b hb] at hfree
    cases hfree
  have hnew : ∀ b ∈ s.eventlist, (s.mem b).id ≠ (s.mem (lastEvent s)).id + 1 := by
    intro b hb heq
    have hlt := hi.lt_issued hroom hb
    rw [State.idOf, heq] at hlt
    exact absurd hlt (Int.lt_irrefl _)
  have hpos : 0 ≤ ((s.mem (lastEvent s)).id + 1).toInt := by
    by_cases hn : s.eventlist = []
    · exact le_of_eq ((hi.issued hroom).1 hn).symm
    · have h0 := hi.nonneg _ (lastEvent_mem hn)
      have h1 := hi.lt_issued hroom (lastEvent_mem hn)
      omega
  have hpc₁ : ((opened s t c a).goto t .user).pc t = .user := by simp
  have hrq₁ : (((opened s t c a).goto t .user).sched t).onRq = true := hrq
  have hread := opened_readSection (t := t) (c := c) (p := .user) hold hnew
  have hclose := sysDoeventclose_empty (t := t) (validId_of_nonneg hpos) hread (by
    rw [goto_mem, opened_mem])
  refine ⟨(s.mem (lastEvent s)).id + 1,
    (opened s t c a).goto t (.ret ((s.mem (lastEvent s)).id + 1).toInt), (opened s t c a).goto t .user,
    (sysDoeventclose ((opened s t c a).goto t .user) t c ((s.mem (lastEvent s)).id + 1)).1,
    ?_, hpos, ?_, returned_step _ _ hrq₁, ?_, ?_, ?_, ?_⟩
  · intro s' o
    rw [openEnds_iff ht hrq hfree, returned, Prod.mk.injEq]
  · intro b
    rw [goto_eventlist, goto_mem, opened_eventlist, List.mem_append, List.mem_singleton]
    constructor
    · rintro ⟨hb | hb, hid⟩
      · rw [opened_mem_of_ne (hold b hb)] at hid
        exact absurd hid (hnew b hb)
      · exact hb
    · rintro rfl
      exact ⟨.inr rfl, by rw [opened_mem]⟩
  · intro s' o
    rw [callEnds_close hpc₁ hrq₁, hclose, returned, Prod.mk.injEq]
  · rw [hclose]
    change (s.eventlist ++ [a]).erase a = s.eventlist
    rw [List.erase_append_right _ fun h => hold a h rfl, List.erase_cons_head, List.append_nil]
  · intro b hb
    rw [hclose]
    exact opened_mem_of_ne (hold b hb)
  · rw [hclose]
    change Function.update (Function.update s.inUse a true) a false = s.inUse
    rw [Function.update_idem, ← hfree, Function.update_eq_self]

/-- A second event is opened beside event 0 and closed again. -/
theorem open_close_identity_second :
    ∃ s, Run step RoomStep boot (opens 0 rootCred 1) s ∧ s.eventlist = [1] ∧
      ∃ i s₁ s₂ s₃, OpenEnds s 0 ⟨5, 5⟩ 2 s₁ (some (Int32.toInt i)) ∧ step s₁ (.run 0) = some s₂ ∧
        CallEnds s₂ 0 ⟨5, 5⟩ (.doeventclose i) s₃ (some 0) ∧ s₃.eventlist = [1] := by
  obtain ⟨s, hr, _, ht⟩ := run_of_idle_test RoomStep (opens 0 rootCred 1) 1
    (seqStepTest 1)
    (fun s => decide (s.eventlist = [1] ∧ s.pc 0 = .user ∧ s.inUse 2 = false ∧ ¬ IdsExhausted s))
    (by decide) (boot_idleFrom 1) fun s x hi h => by
      obtain ⟨hone, hids⟩ := seqStep_of_test hi h
      exact ⟨hone, fun _ _ => hids⟩
  obtain ⟨hlist, hpc, hfree, hroom⟩ := of_decide_eq_true ht
  obtain ⟨i, s₁, s₂, s₃, hopen, _, _, hret, hclose, hsame, _⟩ :=
    open_close_identity bootMem bootUser _ s hr 0 hpc ⟨5, 5⟩ 2 hfree hroom
  exact ⟨s, hr, hlist, i, s₁, s₂, s₃, (hopen s₁ _).mpr ⟨rfl, rfl⟩, hret, (hclose s₃ _).mpr ⟨rfl, rfl⟩,
    hsame.trans hlist⟩

/-! ### The end of the range -/

/-- Nobody is inside a call, one event is live and has the id `i`, and there is free memory. -/
structure Holding (i : Int32) (s : State) : Prop where
  idle : ∀ u, s.pc u = .user
  ready : (s.sched 0).onRq = true
  event : ∃ a b, a ≠ b ∧ s.eventlist = [a] ∧ (s.mem a).id = i ∧ (s.mem a).queue = [] ∧ s.inUse b = false

/-- A call made while nobody else is inside one belongs to a run of calls one at a time. -/
theorem oneAtATime_solo {s s' : State} {t : Task} {xs : List Action}
    (h : Run step (OwnStep t) s xs s') (hidle : ∀ u, u ≠ t → s.pc u = .user) :
    Run step OneAtATime s xs s' ∧ ∀ u, u ≠ t → s'.pc u = .user := by
  have htask : ∀ {m x}, OwnStep t m x → x.task = t := by
    rintro m x (rfl | ⟨r, rfl⟩) <;> rfl
  have hkeep : ∀ m x m', (∀ u, u ≠ t → m.pc u = .user) → OwnStep t m x → step m x = some m' →
      ∀ u, u ≠ t → m'.pc u = .user := by
    intro m x m' hm hx hstep u hu
    rw [step_pc_of_ne hstep ((htask hx).symm ▸ hu)]
    exact hm u hu
  refine ⟨(h.strengthen _ hidle hkeep).mono ?_, h.invariant _ hidle hkeep⟩
  rintro m x ⟨hx, hm⟩
  refine .inr fun u hu => ?_
  rw [hm u (htask hx ▸ hu)]
  rfl

/-- A whole call, made while nobody else is inside one. -/
theorem call_run {s : State} (s' : State) {t : Task} {c : Cred} {k : Call} {r : Int}
    (hidle : ∀ u, s.pc u = .user) (hrq : (s'.sched t).onRq = true)
    (h : CallEnds s t c k (s'.goto t (.ret r)) (some r)) :
    ∃ xs, Run step OneAtATime s xs (s'.goto t .user) ∧ ∀ u, (s'.goto t .user).pc u = .user := by
  obtain ⟨m, hcall, ys, hys, _⟩ := h
  have hfirst : OneAtATime s (.call t c k) := .inr fun u _ => by rw [hidle u]; rfl
  have hm : ∀ u, u ≠ t → m.pc u = .user := by
    intro u hu
    rw [step_pc_of_ne hcall hu]
    exact hidle u
  obtain ⟨hrun, hend⟩ := oneAtATime_solo hys hm
  have hlast : OneAtATime (s'.goto t (.ret r)) (.run t) := .inr fun u hu => by rw [hend u hu]; rfl
  refine ⟨_, .cons hfirst hcall (hrun.append (.single hlast (returned_step s' r hrq))), fun u => ?_⟩
  rw [goto_pc]
  by_cases hu : u = t
  · rw [hu, Function.update_self]
  · have := hend u hu
    rw [goto_pc, Function.update_of_ne hu] at this
    rw [Function.update_of_ne hu, this]

/-- Open a second event and close the first. -/
theorem Holding.turn {i : Int32} {s : State} (h : Holding i s) (hi : 0 ≤ i.toInt) :
    ∃ xs s', Run step OneAtATime s xs s' ∧ Holding (i + 1) s' := by
  obtain ⟨a, b, hab, hlist, hid, hqueue, hfree⟩ := h.event
  have hlast : (s.mem (lastEvent s)).id = i := by
    rw [lastEvent, hlist]
    exact hid
  have hopen : OpenEnds s 0 rootCred b ((opened s 0 rootCred b).goto 0 (.ret (i + 1).toInt))
      (some (i + 1).toInt) := by
    rw [openEnds_iff (h.idle 0) h.ready hfree, hlast]
    rfl
  obtain ⟨xs, hxs, hidle⟩ := call_run (opened s 0 rootCred b) h.idle h.ready hopen.callEnds
  have hmem : (opened s 0 rootCred b).mem a = s.mem a := opened_mem_of_ne hab
  have hread : readSection ((opened s 0 rootCred b).goto 0 .user).mem
      ((opened s 0 rootCred b).goto 0 .user).eventlist rootCred i = some a := by
    have hfound : searchLoop (opened s 0 rootCred b).mem i none ([a] ++ [b]) = some a := by
      simp [searchLoop, hmem, hid]
    rw [goto_mem, goto_eventlist, opened_eventlist, hlist, readSection, hfound]
    simp [validateEvent, rootCred]
  have hclose := sysDoeventclose_empty (t := 0) (validId_of_nonneg hi) hread (by
    rw [goto_mem, hmem, hqueue])
  obtain ⟨ys, hys, hidle'⟩ := call_run (c := rootCred) (k := .doeventclose i) (r := 0)
    { (opened s 0 rootCred b).goto 0 .user with
      eventlist := ((opened s 0 rootCred b).goto 0 .user).eventlist.erase a
      inUse := Function.update ((opened s 0 rootCred b).goto 0 .user).inUse a false }
    hidle h.ready ((callEnds_close (hidle 0) h.ready).mpr hclose.symm)
  refine ⟨xs ++ ys, _, hxs.append hys, hidle', h.ready, b, a, hab.symm, ?_, ?_, ?_, ?_⟩
  · change (s.eventlist ++ [b]).erase a = [b]
    rw [hlist]
    exact List.erase_cons_head ..
  · change ((opened s 0 rootCred b).mem b).id = _
    rw [opened_mem, hlast]
  · change ((opened s 0 rootCred b).mem b).queue = _
    rw [opened_mem]
  · exact Function.update_self ..

theorem holding_reached (n : ℕ) (hn : n < 2 ^ 31) :
    ∃ xs s, Run step OneAtATime boot xs s ∧ Holding (Int32.ofNat n) s := by
  induction n with
  | zero =>
    obtain ⟨s, hr, hi, ht⟩ := run_of_idle_test OneAtATime (opens 0 rootCred 1) 1 (oneAtATimeTest 1)
      (fun s => decide (s.pc 0 = .user ∧ (s.sched 0).onRq = true ∧ s.eventlist = [1] ∧
        (s.mem 1).id = 0 ∧ (s.mem 1).queue = [] ∧ s.inUse 2 = false))
      (by decide) (boot_idleFrom 1) fun s x hi h => oneAtATime_of_test hi h
    obtain ⟨hpc, hrq, hlist, hid, hqueue, hfree⟩ := of_decide_eq_true ht
    refine ⟨_, s, hr, fun u => ?_, hrq, 1, 2, by decide, hlist, hid, hqueue, hfree⟩
    rcases Nat.eq_zero_or_pos u with rfl | hu
    · exact hpc
    · exact hi u hu
  | succ n ih =>
    obtain ⟨xs, s, hr, hs⟩ := ih (by omega)
    obtain ⟨ys, s', hr', hs'⟩ := hs.turn (by
      rw [Int32.toInt_ofNat_of_lt (by omega)]
      omega)
    refine ⟨xs ++ ys, s', hr.append hr', ?_⟩
    rw [Int32.ofNat_add]
    exact hs'

/-- After 2^31-1 turns the next open returns -2^31. -/
theorem open_returns_negative :
    ¬ ∀ mem user xs s, Run step OneAtATime (doeventInit mem user) xs s →
      ∀ t c a, s.pc t = .user → s.inUse a = false → ∀ s' r, OpenEnds s t c a s' (some r) → 0 ≤ r := by
  intro hclaim
  obtain ⟨xs, s, hr, hs⟩ := holding_reached (2 ^ 31 - 1) (by decide)
  obtain ⟨a, b, _, hlist, hid, _, hfree⟩ := hs.event
  have hlast : (s.mem (lastEvent s)).id = Int32.ofNat (2 ^ 31 - 1) := by
    rw [lastEvent, hlist]
    exact hid
  have hopen := (openEnds_iff (c := rootCred) (hs.idle 0) hs.ready hfree).mpr rfl
  have hpos := hclaim bootMem bootUser xs s hr 0 rootCred b (hs.idle 0) hfree _ _ hopen
  rw [hlast] at hpos
  exact absurd hpos (by decide)

end DoEvent
