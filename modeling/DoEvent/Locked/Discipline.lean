import DoEvent.Locked.Machine
import DoEvent.Transition.Run

/-!
# Who holds the lock

At each program counter a task holds `lock` in one way: not at all, for reading or for
writing. Whatever the tasks do, the lock is held as their program counters say, so it is
enough to look at the program counters to see that nobody asks for the lock twice, sleeps
with it or takes it out of a call.
-/

namespace DoEvent.Locked

open Shared Transition

/-! ### Program counters -/

def Storing.access : Storing → Access
  | .initListHead .. => .none
  | _ => .write

/-- How the task holds `lock`. -/
def Pc.access : Pc → Access
  | .stores _ k => k.access
  | .openPrev .. | .openLast .. | .openLastid .. | .openUnlock .. => .write
  | .closeCount .. | .closeWake .. | .closePrev .. | .closeNext .. | .closeUnlock .. => .write
  | .sigCount .. | .sigUnlock .. | .changeUnlock => .write
  | .searchFirst .. | .searchId .. | .searchNext .. | .failUnlock => .read
  | .checkUid .. | .checkUidFlag .. | .checkGid .. | .checkGidFlag .. | .checkOwner .. => .read
  | .granted .. | .changeFound .. => .read
  | .statUid .. | .statGid .. | .statUidFlag .. | .statGidFlag .. | .statUnlock .. => .read
  | .infoFirst .. | .infoId .. | .infoNext .. | .infoUnlock .. => .read
  | _ => .none

/-- The record that only this task may still link or free. -/
def Pc.owns : Pc → Option Addr
  | .stores _ (.initListHead _ a) | .openLock _ a | .openPrev _ a => some a
  | .stores _ (.listDelInit e _) | .closeUnlock e _ | .closeKfree e _ => some e
  | _ => none

/-- The event that a close has validated and not yet unlinked. -/
def Pc.closes : Pc → Option Addr
  | .granted .close e | .closeActive e | .closeLock e _ | .closeCount e _ => some e
  | .stores _ (.setCondition e _) | .closeWake e _ | .closePrev e _ | .closeNext e _ _ => some e
  | _ => none

/-- The stores that a writer has still to make. -/
def Pc.todo : Pc → List (Addr × Store)
  | .stores _ (.initListHead ..) => []
  | .stores todo _ => todo
  | _ => []

/-- The program counter of a task that holds the lock so, and owns and owes nothing. -/
structure Pc.Holds (a : Access) (p : Pc) : Prop where
  access : p.access = a
  owns : p.owns = none
  todo : p.todo = []

theorem entry_holds (c : Cred) (k : Call) : (entry c k).Holds .none := by
  cases k <;> simp only [entry] <;> (try split_ifs) <;> exact ⟨rfl, rfl, rfl⟩

section
variable (k : Lookup) (i : Int32) (w : Option Addr) (pos : Addr)

theorem Lookup.exit_holds : (k.exit i w).Holds .read := by
  cases k <;> cases w <;> simp only [Lookup.exit] <;> (try split_ifs) <;> exact ⟨rfl, rfl, rfl⟩

theorem Lookup.loopTest_holds : (k.loopTest i w pos).Holds .read := by
  rw [Lookup.loopTest]
  split_ifs
  · exact k.exit_holds i w
  · exact ⟨rfl, rfl, rfl⟩

theorem Lookup.found_holds : (k.found i pos).Holds .read := by
  cases k with
  | stat p v => exact ⟨rfl, rfl, rfl⟩
  | access aim c => exact (Lookup.access aim c).exit_holds i (some pos)
  | change c w => exact (Lookup.change c w).exit_holds i (some pos)

theorem infoTest_holds (num : Int32) (q : Option ℕ) (arr : List Int32) (check : Int32) :
    (infoTest num q arr check pos).Holds .read := by
  rw [infoTest]
  split_ifs <;> exact ⟨rfl, rfl, rfl⟩

end

/-! ### The lock -/

def Effect.Shifts : Effect → Access → Access → Prop
  | .readLock, a, b => a = .none ∧ b = .read
  | .readUnlock, a, b => a = .read ∧ b = .none
  | .writeLock, a, b => a = .none ∧ b = .write
  | .writeUnlock, a, b => a = .write ∧ b = .none
  | _, a, b => a = b

def Store.isLink : Store → Bool
  | .next _ | .prev _ => true
  | _ => false

/-- The program counters whose step leaves all but conditions and queues alone, and owes no
list store. -/
def Pc.plain : Pc → Bool
  | .stores (_ :: _) _ | .openPrev .. | .closeNext .. | .closeKfree .. => false
  | _ => true

theorem plain_todo {q : Pc} (hplain : q.plain = true) : q.todo = [] := by
  cases q with
  | stores todo k =>
    cases todo with
    | nil => cases k <;> rfl
    | cons w todo => cases hplain
  | _ => rfl

/-- How a step leads from one program counter to the next: it moves the lock as its effect
says, and if it is plain it hands over what the task owns and leads to no list store. -/
structure Passes (q : Pc) (e : Effect) (p : Pc) : Prop where
  shifts : e.Shifts q.access p.access
  owns : q.plain = true → p.owns = q.owns
  no_links : q.plain = true → ∀ w ∈ p.todo, w.2.isLink = false

theorem Pc.Holds.no_links {a : Access} {p : Pc} (h : p.Holds a) :
    ∀ w ∈ p.todo, w.2.isLink = false := by
  rw [h.todo]
  exact List.forall_mem_nil _

theorem Passes.read {q p : Pc} (hq : q.Holds .read) (hp : p.Holds .read) : Passes q .skip p :=
  ⟨hq.access.trans hp.access.symm, fun _ => hp.owns.trans hq.owns.symm, fun _ => hp.no_links⟩

theorem Passes.not_plain {q p : Pc} {e : Effect} (hq : q.plain = false)
    (h : e.Shifts q.access p.access) : Passes q e p := by
  refine ⟨h, fun hplain => ?_, fun hplain => ?_⟩ <;>
  · rw [hq] at hplain
    cases hplain

theorem next_passes {s : State} {t : Task} {q p : Pc} {e : Effect} (h : next s t q = some (e, p)) :
    Passes q e p := by
  have hnone : ∀ w ∈ ([] : List (Addr × Store)), w.2.isLink = false := List.forall_mem_nil _
  cases q with
  | user | openAlloc => cases h
  | stores todo k =>
    cases todo with
    | nil =>
      cases h
      cases k <;> exact ⟨rfl, fun _ => rfl, fun _ => hnone⟩
    | cons w todo =>
      cases h
      exact .not_plain rfl rfl
  | openPrev | closeNext | closeKfree =>
    cases h
    exact .not_plain rfl rfl
  | searchFirst k i w =>
    cases h
    exact .read ⟨rfl, rfl, rfl⟩ (k.loopTest_holds i w _)
  | searchId k i pos =>
    cases h
    split_ifs
    · exact .read ⟨rfl, rfl, rfl⟩ (k.found_holds i pos)
    · exact .read ⟨rfl, rfl, rfl⟩ ⟨rfl, rfl, rfl⟩
  | searchNext k i pos =>
    cases h
    exact .read ⟨rfl, rfl, rfl⟩ (k.loopTest_holds i none _)
  | infoFirst num q =>
    cases h
    exact .read ⟨rfl, rfl, rfl⟩ (infoTest_holds _ num q _ _)
  | infoNext num q arr check pos =>
    cases h
    exact .read ⟨rfl, rfl, rfl⟩ (infoTest_holds _ num q _ _)
  | checkUid | checkUidFlag | checkGid | checkGidFlag | checkOwner =>
    cases h
    split_ifs <;> exact .read ⟨rfl, rfl, rfl⟩ ⟨rfl, rfl, rfl⟩
  | statProbe i p junk =>
    cases h
    cases statProbe (s.user t) p with
    | none => exact ⟨rfl, fun _ => rfl, fun _ => hnone⟩
    | some v =>
      dsimp only
      split_ifs <;> exact ⟨rfl, fun _ => rfl, fun _ => hnone⟩
  | infoProbe num q =>
    cases h
    split_ifs <;> exact ⟨rfl, fun _ => rfl, fun _ => hnone⟩
  | openLastid c a last =>
    cases h
    exact ⟨rfl, fun _ => rfl, fun _ => by simp [Pc.todo, openFields, Store.isLink]⟩
  | closeCount a n | sigCount a n =>
    cases h
    split_ifs
    · exact ⟨rfl, fun _ => rfl, fun _ => hnone⟩
    · exact ⟨rfl, fun _ => rfl, fun _ => by simp [Pc.todo, Store.isLink]⟩
  | granted aim a =>
    cases h
    cases aim <;> exact ⟨⟨rfl, rfl⟩, fun _ => rfl, fun _ => hnone⟩
  | waitTest | waitRetest | waitSignal | sigActive =>
    cases h
    split_ifs <;> exact ⟨rfl, fun _ => rfl, fun _ => hnone⟩
  | changeLock w a =>
    cases h
    refine ⟨⟨rfl, rfl⟩, fun _ => rfl, fun _ => ?_⟩
    cases w <;> simp [Pc.todo, Change.stores, Store.isLink]
  | closeLock | statUnlock =>
    cases h
    split_ifs <;> exact ⟨⟨rfl, rfl⟩, fun _ => rfl, fun _ => hnone⟩
  | openLock | openUnlock | searchLock | failUnlock | closeUnlock | sigLock | sigUnlock
  | changeFound | changeUnlock | infoLock | infoUnlock =>
    cases h
    exact ⟨⟨rfl, rfl⟩, fun _ => rfl, fun _ => hnone⟩
  | _ =>
    cases h
    exact ⟨rfl, fun _ => rfl, fun _ => hnone⟩

section
variable {s m : State} {t : Task} {q p : Pc} {e : Effect}

theorem Agrees.apply {acc : Task → Access} {b : Access} (h : s.lock.Agrees acc)
    (hshift : e.Shifts (acc t) b) (happly : apply s t e = some m) :
    m.lock.Agrees (Function.update acc t b) := by
  cases e with
  | readLock =>
    obtain ⟨k, hk, rfl⟩ := Option.map_eq_some_iff.mp happly
    rw [hshift.2]
    exact h.readLock hshift.1 hk
  | writeLock =>
    obtain ⟨k, hk, rfl⟩ := Option.map_eq_some_iff.mp happly
    rw [hshift.2]
    exact h.writeLock hk
  | readUnlock =>
    cases happly
    rw [hshift.2]
    exact h.readUnlock hshift.1
  | writeUnlock =>
    cases happly
    rw [hshift.2]
    exact h.writeUnlock hshift.1
  | _ =>
    have hsame : acc t = b := hshift
    rw [← hsame, Function.update_eq_self, (apply_keeps happly).lock rfl]
    exact h

end

/-! ### Every interleaving -/

def AnyStep (_ : State) (_ : Action) : Prop := True

/-- The places where the source may sleep: `kmalloc` with `GFP_KERNEL`, `copy_from_user`,
`copy_to_user`, and `schedule` in `wait_event_interruptible`. -/
def Pc.maySleep : Pc → Bool
  | .openAlloc _ => true
  | .statProbe .. | .infoProbe .. => true
  | .statCopy .. | .infoCopy .. => true
  | .waitSchedule _ | .waitAsleep _ => true
  | _ => false

/-- Outside of the calls, or asleep in a wait. -/
def Pc.parked : Pc → Bool
  | .user | .ret _ | .waitAsleep _ => true
  | _ => false

section
variable {s s' m : State} {t : Task} {q p : Pc} {e : Effect} {x : Action}

theorem access_of_maySleep (h : q.maySleep = true) : q.access = .none := by
  cases q with
  | openAlloc | statProbe | infoProbe | statCopy | infoCopy | waitSchedule | waitAsleep => rfl
  | _ => cases h

theorem access_of_parked (h : q.parked = true) : q.access = .none := by
  cases q with
  | user | ret | waitAsleep => rfl
  | _ => cases h

/-- `schedule` and `copy_to_user` are called nowhere else. -/
theorem maySleep_of_effect (h : next s t q = some (e, p))
    (he : e = .schedule ∨ ∃ m, e = .copyOut m) : q.maySleep = true := by
  cases q with
  | waitSchedule | statCopy | infoCopy => rfl
  | stores todo k => cases todo <;> cases h <;> simp at he
  | user | openAlloc => cases h
  | _ =>
    cases h
    simp at he

theorem agrees_goto (hpc : m.pc = s.pc)
    (hlock : m.lock.Agrees (Function.update (fun u => (s.pc u).access) t p.access)) :
    (m.goto t p).lock.Agrees fun u => ((m.goto t p).pc u).access := by
  have hacc : (fun u => ((m.goto t p).pc u).access) =
      Function.update (fun u => (s.pc u).access) t p.access := by
    funext u
    by_cases hu : u = t
    · rw [hu, goto_pc, Function.update_self]
    · rw [goto_pc_of_ne hu, hpc, Function.update_of_ne hu]
  rw [hacc]
  exact hlock

/-- One step keeps the lock and the program counters together. -/
theorem agrees_step (hi : s.lock.Agrees fun t => (s.pc t).access) (h : step s x = some s') :
    s'.lock.Agrees fun t => (s'.pc t).access := by
  -- Outside of `run` the task keeps its access, and the lock is not touched.
  have hkeep : ∀ (t : Task) (p : Pc), p.access = (s.pc t).access →
      s.lock.Agrees (Function.update (fun u => (s.pc u).access) t p.access) := by
    intro t p hacc
    rw [hacc, Function.update_eq_self]
    exact hi
  cases Move.of_step h with
  | call t c k hpc =>
    exact agrees_goto rfl (hkeep t _ (by rw [hpc, (entry_holds c k).access]; rfl))
  | nomem t c hpc => exact agrees_goto rfl (hkeep t _ (by rw [hpc]; rfl))
  | kmalloc t c a hpc hfree =>
    have hlock := hkeep t (.stores (initListHead a) (.initListHead c a)) (by rw [hpc]; rfl)
    exact agrees_goto rfl hlock
  | run t e p m hrq hnext happly =>
    exact agrees_goto (apply_pc happly) (Agrees.apply hi (next_passes hnext).shifts happly)
  | posix | deliver => exact hi

theorem agrees_reachable {node : Addr → Node} {user : Task → UserMem} {xs : List Action}
    (hrun : Run step AnyStep (doeventInit node user) xs s) :
    s.lock.Agrees fun t => (s.pc t).access :=
  hrun.invariant (fun s => s.lock.Agrees fun t => (s.pc t).access) RwLock.agrees_free
    fun _ _ _ hi _ hst => agrees_step hi hst

end

/-! ### Fixed runs -/

def boot : State := doeventInit (fun _ => ⟨⟨0, 0, 0, 0, 0, 0, []⟩, 0, 0⟩) bootUser

def openedRun : List Action := [.call 0 rootCred .doeventopen, .kmalloc 0 (some 1)] ++ runs 0 23

def State.idleFrom (s : State) (k : Task) : Prop := ∀ t, k ≤ t → s.pc t = .user

theorem State.idleFrom.step {s s' : State} {x : Action} {k : Task} (hi : s.idleFrom k)
    (hx : x.task < k) (h : Locked.step s x = some s') : s'.idleFrom k := by
  intro t ht
  rw [(Move.of_step h).pc_of_ne (Nat.ne_of_gt (Nat.lt_of_lt_of_le hx ht))]
  exact hi t ht

theorem run_of_idle {ok : State → Action → Prop} {s s' : State} {xs : List Action} {k : Task}
    (check : State → Action → Bool)
    (h : steps step (fun s x => decide (x.task < k) && check s x) s xs = some s')
    (hs : s.idleFrom k) (sound : ∀ s x, s.idleFrom k → check s x = true → ok s x) :
    Run step ok s xs s' ∧ s'.idleFrom k := by
  refine Run.of_steps_invariant _ (State.idleFrom · k) h hs ?_ ?_
  · intro s x s' hi hx hst
    simp only [Bool.and_eq_true, decide_eq_true_eq] at hx
    exact hi.step hx.1 hst
  · intro s x hi hx
    simp only [Bool.and_eq_true] at hx
    exact sound s x hi hx.2

/-- In every state that any tasks reach in any interleaving: the lock has one writer and no
reader, or readers only, and these are the tasks inside the sections; a task that asks for the
lock does not hold it, and one that releases it holds it that way; nobody sleeps with it or
has it outside of the calls; and when all are parked it is free. -/
theorem lock_held_in_sections_only (node : Addr → Node) (user : Task → UserMem) (xs : List Action)
    (s : State) (hrun : Run step AnyStep (doeventInit node user) xs s) :
    ((∃ w, s.lock = .exclusive w ∧ ∀ u, (s.pc u).access = if u = w then .write else .none) ∨
      ∃ readers, s.lock = .shared readers ∧ readers.Nodup ∧
        ∀ u, (s.pc u).access = if u ∈ readers then .read else .none) ∧
    (∀ t e p, next s t (s.pc t) = some (e, p) →
      (e = .readLock ∨ e = .writeLock → ¬ s.lock.Holds t) ∧
      (e = .readUnlock → ∃ readers, s.lock = .shared readers ∧ t ∈ readers) ∧
      (e = .writeUnlock → s.lock = .exclusive t) ∧
      ((e = .schedule ∨ ∃ m, e = .copyOut m) → ¬ s.lock.Holds t)) ∧
    (∀ t, (s.pc t).maySleep = true ∨ (s.pc t).parked = true → ¬ s.lock.Holds t) ∧
    ((∀ t, (s.pc t).parked = true) → s.lock = .shared []) := by
  have hlock := agrees_reachable hrun
  have hout : ∀ t, (s.pc t).access = .none → ¬ s.lock.Holds t := fun t ht hh =>
    hlock.holds_iff.mp hh ht
  refine ⟨?_, ?_, ?_, ?_⟩
  · cases hk : s.lock with
    | exclusive w => exact .inl ⟨w, rfl, by rw [hk] at hlock; exact hlock⟩
    | shared readers => exact .inr ⟨readers, rfl, by rw [hk] at hlock; exact hlock⟩
  · intro t e p hnext
    have hshift := (next_passes hnext).shifts
    refine ⟨fun he => ?_, fun he => ?_, fun he => ?_, fun he => ?_⟩
    · obtain rfl | rfl := he <;> exact hout t hshift.1
    · subst he
      exact hlock.reader hshift.1
    · subst he
      exact hlock.alone hshift.1
    · exact hout t (access_of_maySleep (maySleep_of_effect hnext he))
  · intro t ht
    obtain ht | ht := ht
    · exact hout t (access_of_maySleep ht)
    · exact hout t (access_of_parked ht)
  · intro hall
    exact hlock.eq_free fun t => access_of_parked (hall t)

def asleepRun : List Action :=
  openedRun ++ [.call 1 rootCred (.doeventwait 0)] ++ runs 1 10

theorem lock_held_in_sections_only_asleep :
    ∃ s, Run step AnyStep boot asleepRun s ∧ s.pc 1 = .waitAsleep 1 ∧
      (∀ t, (s.pc t).parked = true) ∧ s.lock = .shared [] := by
  have hsteps : (steps step (fun _ x => decide (x.task < 2) && true) boot asleepRun).map
      (fun s => s.pc 1 == .waitAsleep 1 && (s.pc 0).parked) = some true := by
    decide +kernel
  obtain ⟨s, hs, ht⟩ := Option.map_eq_some_iff.mp hsteps
  have hreach : Run step AnyStep boot asleepRun s ∧ s.idleFrom 2 :=
    run_of_idle (fun _ _ => true) hs (fun _ _ => rfl) fun _ _ _ _ => trivial
  obtain ⟨hrun, hidle⟩ := hreach
  simp only [Bool.and_eq_true, beq_iff_eq] at ht
  have hparked : ∀ t, (s.pc t).parked = true := by
    intro t
    match t with
    | 0 => exact ht.2
    | 1 =>
      rw [ht.1]
      rfl
    | t + 2 =>
      rw [hidle (t + 2) (Nat.le_add_left 2 t)]
      rfl
  exact ⟨s, hrun, ht.1, hparked, (lock_held_in_sections_only _ _ _ s hrun).2.2.2 hparked⟩

end DoEvent.Locked
