import DoEvent.Calls
import DoEvent.Ids

/-!
# Calls one at a time

The runs in which no two calls overlap: while one task is inside a call, every other task
is in user mode, has returned, or is asleep in a wait. Waiters that a call has woken run
on afterwards, one at a time as well. Pointers cannot go stale under a running call here,
although a sleeper may still come back to a record that has been freed.
-/

namespace DoEvent

open Transition

def Pc.parked : Pc → Bool
  | .user | .ret _ | .waitAsleep _ => true
  | _ => false

/-- No call is under way, except for waits that are asleep. -/
def State.quiet (s : State) : Prop := ∀ t, (s.pc t).parked = true

/-- Only the acting task may be awake inside a call; POSIX signals come at any time. -/
def OneAtATime (s : State) (x : Action) : Prop :=
  x.isPosix = true ∨ ∀ u, u ≠ x.task → (s.pc u).parked = true

structure SeqInv (s : State) : Prop where
  alone : ∀ t u, (s.pc t).parked = false → (s.pc u).parked = false → t = u
  list : ListInv s
  own : LocalInv s
  entries : EntriesOk s
  signalling : ∀ t a, s.holds t .signalling a → a ∈ s.eventlist

theorem doeventInit_seqInv (mem : Addr → Event) (user : Task → UserMem) :
    SeqInv (doeventInit mem user) where
  alone := fun _ _ h => by cases h
  list := doeventInit_listInv mem user
  own := doeventInit_localInv mem user
  entries := doeventInit_entriesOk mem user
  signalling := fun _ _ h => by cases h

theorem not_parked_of_hold {p : Pc} {k : Hold} {a : Addr} (h : p.hold = some (k, a))
    (hk : k ≠ .waiting) : p.parked = false := by
  cases p with
  | waitAsleep e =>
    cases h
    exact absurd rfl hk
  | _ => first | rfl | cases h

theorem no_hold_of_quiet {s : State} (h : s.quiet) {t : Task} {k : Hold}
    {a : Addr} (hk : k ≠ .waiting) : ¬ s.holds t k a := by
  intro hold
  have ht := not_parked_of_hold hold hk
  rw [h t] at ht
  cases ht

theorem SeqInv.other_waits {s : State} (hi : SeqInv s) {t u : Task} {k k' : Hold} {a b : Addr}
    (ht : s.holds t k a) (hk : k ≠ .waiting) (hu : s.holds u k' b) (hk' : k' ≠ .waiting) : u = t :=
  hi.alone u t (not_parked_of_hold hu hk') (not_parked_of_hold ht hk)

theorem SeqInv.closesApart {s : State} (hi : SeqInv s) : ClosesApart s := by
  intro t u a ht hu
  rcases ht with ht | ht <;> rcases hu with hu | hu <;>
    exact hi.other_waits hu (by simp) ht (by simp)

theorem SeqInv.wakes_listed {s : State} {x : Action} {e : Effect} {p : Pc} (hi : SeqInv s)
    (hm : Move s x e p) {b : Addr} (hw : e.wakes = some b) : b ∈ s.eventlist := by
  have ho := hm.origin
  cases e with
  | closeSection a process =>
    have hab : a = b := by cases process <;> simp_all [Effect.wakes]
    subst hab
    exact hi.list.unlinking x.task a (holds_of_pc ho.1 rfl)
  | wakeUpAll a =>
    obtain ⟨n, hpc, _⟩ := ho
    cases hw
    exact hi.signalling x.task b (holds_of_pc hpc rfl)
  | _ => cases hw

theorem SeqInv.alone_step {s s' : State} {x : Action} (hi : SeqInv s) (hx : OneAtATime s x)
    (h : step s x = some s') {t u : Task} (ht : (s'.pc t).parked = false)
    (hu : (s'.pc u).parked = false) : t = u := by
  rcases hx with hx | hx
  · cases x with
    | posix v =>
      have hpc : s'.pc = s.pc := by
        rw [← Option.some.inj h]
        exact apply_pc s v .posix
      rw [hpc] at ht hu
      exact hi.alone t u ht hu
    | _ => cases hx
  · have hact : ∀ v, (s'.pc v).parked = false → v = x.task := by
      intro v hv
      by_contra hne
      rw [step_pc_of_ne h hne, hx v hne] at hv
      cases hv
    exact (hact t ht).trans (hact u hu).symm

theorem SeqInv.step {s s' : State} {x : Action} (hi : SeqInv s) (hx : OneAtATime s x)
    (h : step s x = some s') : SeqInv s' := by
  have hlist := hi.list.step (hi.closesApart.unlinksAlone x) h
  have hown := hi.own.step h
  have halone := @SeqInv.alone_step s s' x hi hx h
  obtain ⟨e, p, hm, rfl⟩ := step_eq_some.mp h
  refine ⟨fun t u => halone, hlist, hown,
    hi.entries.move hi.own hi.list hm fun b => hi.wakes_listed hm, ?_⟩
  intro u a hu
  have hal : a ∈ s.eventlist := by
    rcases hm.holds hu with hu | ⟨_, t, c, i, _, _, hr⟩
    · exact hi.signalling u a hu
    · exact (readSection_some hr).1
  rw [goto_eventlist, apply_eventlist]
  have ho := hm.origin
  cases e with
  | openSection c b => exact List.mem_append_left _ hal
  | closeSection b process =>
    -- The closer does not signal, and while it closes nobody else does.
    exfalso
    obtain ⟨hpc, rfl⟩ := ho
    have hclose : s.holds x.task .unlinking b := by
      rw [State.holds, hpc]
      rfl
    rcases holds_goto.mp hu with ⟨_, hp⟩ | ⟨hne, hu⟩
    · cases hp
    · exact hne (hi.other_waits hclose (by simp) hu (by simp))
  | _ => exact hal

theorem seqInv_run {ok : State → Action → Prop} {s s' : State} {xs : List Action}
    (h : Run step ok s xs s') (hi : SeqInv s) (hok : ∀ s x, ok s x → OneAtATime s x) : SeqInv s' :=
  h.invariant SeqInv hi fun s x _ hi hx hstep => hi.step (hok s x hx) hstep

/-- Calls one at a time, and the last id has not reached 2^31-1. -/
def SeqStep (s : State) (x : Action) : Prop := OneAtATime s x ∧ ¬ IdsExhausted s

theorem seqIds_run {s s' : State} {xs : List Action} (h : Run step SeqStep s xs s')
    (hs : SeqInv s) (hi : IdsInv s) : SeqInv s' ∧ IdsInv s' :=
  h.invariant (fun s => SeqInv s ∧ IdsInv s) ⟨hs, hi⟩ fun _ _ _ hinv hok hstep =>
    ⟨hinv.1.step hok.1 hstep, hinv.2.step hinv.1.list hok.2 hstep⟩

def oneAtATimeTest (k : Task) (s : State) (x : Action) : Bool :=
  (List.range k).all fun u => u == x.task || (s.pc u).parked

theorem oneAtATime_of_test {k : Task} {s : State} {x : Action} (hi : s.idleFrom k)
    (h : oneAtATimeTest k s x = true) : OneAtATime s x := by
  refine .inr fun u hu => ?_
  rcases hi.test h u with hpc | htest
  · rw [hpc]
    rfl
  · simpa [hu] using htest

def seqStepTest (k : Task) (s : State) (x : Action) : Bool :=
  oneAtATimeTest k s x && decide (¬ IdsExhausted s)

theorem seqStep_of_test {k : Task} {s : State} {x : Action} (hi : s.idleFrom k)
    (h : seqStepTest k s x = true) : SeqStep s x := by
  obtain ⟨hone, hids⟩ := Bool.and_eq_true_iff.mp h
  exact ⟨oneAtATime_of_test hi hone, of_decide_eq_true hids⟩

theorem quiet_of_test {k : Task} {s : State} (hi : s.idleFrom k)
    (h : ((List.range k).all fun u => (s.pc u).parked) = true) : s.quiet := by
  intro u
  rcases hi.test h u with hpc | htest
  · rw [hpc]
    rfl
  · exact htest

/-- Task 0 opens an event for user 5, and task 1 of the same user sleeps on it. -/
def sleeperRun : List Action :=
  opens 0 ⟨5, 5⟩ 1 ++ [.call 1 ⟨5, 5⟩ (.doeventwait 0)] ++ runs 1 7

end DoEvent
