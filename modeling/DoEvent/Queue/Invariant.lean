import DoEvent.Queue.Machine

/-!
# What the queue lock protects

The ring of the queue is whole once the stores that the holder of `queue.lock` still owes
have been made. An entry is in the ring only while the frame it lies in is on the stack of
its task, and a task is off the run queue only while its entry is in the ring.
-/

namespace DoEvent.Queue

open Shared Transition
open Links (Store linkStores unlinkStores SelfLinked)

/-! ### Positions -/

/-- In a section under `queue.lock`. -/
def Pc.locked : Pc → Bool
  | .prepareEmpty | .prepareHead | .prepareWarnPrev _ | .prepareWarnNext _ | .prepareState
  | .prepareUnlock | .stores _ .listAdd | .stores _ (.listDelInit _) | .deletePrev _
  | .deleteNext _ _ | .finishUnlock | .wakeFirst _ | .wakeNext _ _ | .wakeFunc _ _ _
  | .wakeUnlock _ => true
  | _ => false

/-- The stores to the ring that a task still owes. -/
def Pc.todo : Pc → List (Store ListHead)
  | .stores todo .listAdd | .stores todo (.listDelInit _) => todo
  | _ => []

/-- The entry of the task is on the queue. -/
def Pc.linked : Pc → Bool
  | .stores _ .listAdd | .prepareState | .prepareUnlock | .waitRetest | .waitSignal
  | .waitSchedule | .finishState | .finishNext | .finishPrev | .finishLock
  | .deletePrev .finish | .deleteNext .finish _ => true
  | _ => false

/-- A task between `schedule()` and the next `prepare_to_wait`: it does not know whether it
was woken through the queue, and so whether its entry is still there. -/
def Pc.between : Pc → Bool
  | .waitAsleep | .prepareLock => true
  | _ => false

def Pc.linkable (p : Pc) : Bool := p.linked || p.between || p == .prepareEmpty

/-- The entry has been initialised. -/
def Pc.ready : Pc → Bool
  | .stores _ .defineWait => false
  | p => p.framed

theorem Pc.framed_of_ready {p : Pc} (h : p.ready = true) : p.framed = true := by
  unfold Pc.ready at h
  split at h
  · cases h
  · exact h

theorem Pc.linkable_of_between {p : Pc} (h : p.between = true) : p.linkable = true := by
  simp [linkable, h]

theorem Pc.ready_of_linkable {p : Pc} (h : p.linkable = true) : p.ready = true := by
  cases p with
  | stores todo k => cases k <;> first | rfl | cases h
  | deletePrev d | deleteNext d prev => cases d <;> first | rfl | cases h
  | _ => first | rfl | cases h

theorem Pc.linked_of_between {p : Pc} (h : p.between = true) : p.linked = false := by
  cases p <;> first | rfl | cases h

theorem Pc.locked_of_between {p : Pc} (h : p.between = true) : p.locked = false := by
  cases p <;> first | rfl | cases h

theorem Pc.stores_same (todo todo' : List (Store ListHead)) (k : Storing) :
    (Pc.stores todo' k).linked = (Pc.stores todo k).linked ∧
      (Pc.stores todo' k).linkable = (Pc.stores todo k).linkable ∧
      (Pc.stores todo' k).ready = (Pc.stores todo k).ready := by
  cases k with
  | listDelInit d => cases d <;> exact ⟨rfl, rfl, rfl⟩
  | _ => exact ⟨rfl, rfl, rfl⟩

/-! ### The invariant -/

/-- The first of the entries, or the head. -/
def first (l : List Task) : ListHead := (l.map .entry).headD .taskList

/-- The loop of `__wake_up_common` has `ys` before it, and no task that it has passed is
about to sleep. -/
def Passed (sched : Task → Sched) (l ys : List Task) : Prop :=
  ∃ xs, l = xs ++ ys ∧ ∀ u ∈ xs, (sched u).state = .running

/-- Woken out of `schedule()` by the loop that now unlinks its entry. -/
def Woken (sched : Task → Sched) (pc : Task → Pc) (u : Task) : Prop :=
  (pc u).between = true ∧ (sched u).state = .running

/-- The stores of a holder `t` go to the head, to entries on the queue and to the entry of
`d`, and none closes the entry of another task on itself. -/
def StoresOk (l : List Task) (t d : Task) (todo : List (Store ListHead)) : Prop :=
  ∀ w ∈ todo, (∀ u, w.node = .entry u → u ∈ l ∨ u = d) ∧
    ∀ u, w = .next (.entry u) (.entry u) → u ∈ l → u = t

/-- What the locals of the holder of the lock say. -/
def SectionOk (s : State) (l : List Task) (t : Task) : Pc → Prop
  | .prepareWarnPrev next | .prepareWarnNext next => next = s.links.next .taskList
  | .stores todo .listAdd =>
    StoresOk l t t todo ∧ ∀ w ∈ todo, ∀ u b, w = .next (.entry u) b → u = t
  | .stores todo (.listDelInit .finish) => StoresOk l t t todo
  | .stores todo (.listDelInit (.autoremove _ curr next)) =>
    StoresOk l t curr todo ∧ curr ∉ l ∧ Woken s.sched s.pc curr ∧
      ∃ ys, Passed s.sched l ys ∧ next = first ys
  | .deletePrev (.autoremove _ curr next) =>
    Woken s.sched s.pc curr ∧ ∃ ys, Passed s.sched l (curr :: ys) ∧ next = first ys
  | .deleteNext .finish prev => prev = s.links.prev (.entry t)
  | .deleteNext (.autoremove _ curr next) prev =>
    prev = s.links.prev (.entry curr) ∧ Woken s.sched s.pc curr ∧
      ∃ ys, Passed s.sched l (curr :: ys) ∧ next = first ys
  | .wakeNext _ curr => ∃ ys, Passed s.sched l ys ∧ curr = first ys
  | .wakeFunc _ curr next => ∃ ys, Passed s.sched l (curr :: ys) ∧ next = first ys
  | .wakeUnlock _ => Passed s.sched l []
  | _ => True

/-- The entry is being initialised. -/
def Fresh (k : Links ListHead) (t : Task) : Pc → Prop
  | .stores todo .defineWait =>
    (∀ w ∈ todo, w.node = .entry t) ∧ (k.storeAll todo).SelfLinked (.entry t)
  | _ => True

/-- The stores that the holder of the lock still owes. -/
def State.todo (s : State) : List (Store ListHead) := s.lock.elim [] fun t => (s.pc t).todo

/-- The links as the holder of the lock is going to leave them. -/
def State.settled (s : State) : Links ListHead := s.links.storeAll s.todo

structure Inv (s : State) (l : List Task) : Prop where
  lock : ∀ t, s.lock = some t ↔ (s.pc t).locked = true
  ring : s.settled.Ring .taskList (l.map .entry)
  linkable : ∀ t ∈ l, (s.pc t).linkable = true
  linked : ∀ t, (s.pc t).linked = true → t ∈ l
  bare : ∀ t, t ∉ l → (s.pc t).ready = true → s.settled.SelfLinked (.entry t)
  fresh : ∀ t, Fresh s.links t (s.pc t)
  -- Holds in the middle of the stores as well, where `finish_wait` may look at its entry.
  apart : ∀ t ∈ l, s.lock ≠ some t → s.links.next (.entry t) ≠ .entry t
  asleep : ∀ t, (s.sched t).onRq = false →
    s.pc t = .waitAsleep ∧ t ∈ l ∧ (s.sched t).state = .interruptible
  holder : ∀ t, s.lock = some t → SectionOk s l t (s.pc t)
  -- So `list_empty_careful` never answers true there.
  careful : ∀ t, s.pc t ≠ .finishPrev
  warned : s.warned = false

section
variable {s s' : State} {l l' : List Task} {t u v : Task} {p : Pc}

theorem entry_mem {l : List Task} {t : Task} : ListHead.entry t ∈ l.map .entry ↔ t ∈ l := by simp

theorem Inv.init (links : Links ListHead) : Inv (init links) [] where
  lock _ := by simp [Queue.init, Pc.locked]
  ring := Links.ring_nil (by simp [Queue.init, State.settled, State.todo, Links.storeAll,
    Links.setNext, Links.setPrev]) (by simp [Queue.init, State.settled, State.todo, Links.storeAll,
    Links.setNext, Links.setPrev])
  linkable t ht := by cases ht
  linked t ht := by cases ht
  bare t _ ht := by cases ht
  fresh _ := trivial
  apart t ht := by cases ht
  asleep t ht := by cases ht
  holder t ht := by cases ht
  careful t ht := by cases ht
  warned := rfl

/-! ### Frames -/

theorem todo_of_lock (h : s.lock = some t) : s.todo = (s.pc t).todo := by rw [State.todo, h]; rfl

theorem todo_of_free (h : s.lock = none) : s.todo = [] := by rw [State.todo, h]; rfl

theorem settled_of_lock (h : s.lock = some t) : s.settled = s.links.storeAll (s.pc t).todo := by
  rw [State.settled, todo_of_lock h]

theorem Inv.other (hi : Inv s l) (ht : s.lock = some t) (hu : u ≠ t) : (s.pc u).locked = false := by
  have hl : ¬ (s.pc u).locked = true := fun hl => by
    rw [(hi.lock u).mpr hl] at ht
    exact hu (Option.some.inj ht)
  simpa using hl

/-- Whose entries the holder's stores go to: those on the queue, its own, and that of a task
being woken. -/
theorem Inv.todo_entry (hi : Inv s l) {w : Store ListHead} (hw : w ∈ s.todo)
    (he : w.node = .entry u) :
    u ∈ l ∨ (s.lock = some u ∧ (s.pc u).framed = true) ∨ Woken s.sched s.pc u := by
  cases hl : s.lock with
  | none =>
    rw [todo_of_free hl] at hw
    cases hw
  | some t =>
    rw [todo_of_lock hl] at hw
    have hok := hi.holder t hl
    have hself : u = t → (s.pc t).framed = true → some t = some u ∧ (s.pc u).framed = true := by
      rintro rfl hf
      exact ⟨rfl, hf⟩
    generalize s.pc t = q at hw hok hself
    cases q with
    | stores todo k =>
      cases k with
      | defineWait => cases hw
      | listAdd => exact ((hok.1 w hw).1 u he).imp_right fun h => .inl (hself h rfl)
      | listDelInit d =>
        cases d with
        | finish => exact ((hok w hw).1 u he).imp_right fun h => .inl (hself h rfl)
        | autoremove process curr next =>
          rcases (hok.1 w hw).1 u he with h | rfl
          · exact .inl h
          · exact .inr (.inr hok.2.2.1)
    | _ => cases hw

/-- They stay away from the entry of a task that is not on the queue, does not hold the lock
and is not being woken. -/
theorem Inv.elsewhere (hi : Inv s l) (hu : u ∉ l) (hlock : s.lock ≠ some u)
    (hb : (s.pc u).between = false) : ∀ w ∈ s.todo, w.node ≠ .entry u := by
  intro w hw he
  rcases hi.todo_entry hw he with h | ⟨h, _⟩ | h
  · exact hu h
  · exact hlock h
  · exact absurd (hb.symm.trans h.1) (by decide)

theorem Passed.mono {sched sched' : Task → Sched} {ys : List Task} (h : Passed sched l ys)
    (hsched : ∀ v, (sched v).state = .running → (sched' v).state = .running) : Passed sched' l ys := by
  obtain ⟨xs, hl, hxs⟩ := h
  exact ⟨xs, hl, fun v hv => hsched v (hxs v hv)⟩

theorem Woken.mono {sched sched' : Task → Sched} {pc pc' : Task → Pc} (h : Woken sched pc u)
    (hsched : ∀ v, (sched v).state = .running → (sched' v).state = .running)
    (hpc : ∀ v, (pc v).between = true → (pc' v).between = true) : Woken sched' pc' u :=
  ⟨hpc u h.1, hsched u h.2⟩

/-- What the holder knows outlives the steps of others. -/
theorem SectionOk.frame (h : SectionOk s l t p) (hlinked : p.linked = true → t ∈ l)
    (hlinks : ∀ a ∈ ListHead.taskList :: l.map .entry, s'.links.Same s.links a)
    (hsched : ∀ v, (s.sched v).state = .running → (s'.sched v).state = .running)
    (hpc : ∀ v, (s.pc v).between = true → (s'.pc v).between = true) : SectionOk s' l t p := by
  have hhead : s'.links.next .taskList = s.links.next .taskList := (hlinks _ (List.mem_cons_self ..)).1
  have hentry : ∀ v ∈ l, s'.links.prev (.entry v) = s.links.prev (.entry v) := fun v hv =>
    (hlinks _ (List.mem_cons_of_mem _ (entry_mem.mpr hv))).2
  cases p with
  | prepareWarnPrev next | prepareWarnNext next => exact h.trans hhead.symm
  | stores todo k =>
    cases k with
    | defineWait => trivial
    | listAdd => exact h
    | listDelInit d =>
      cases d with
      | finish => exact h
      | autoremove process curr next =>
        obtain ⟨hstores, hcurr, hwoken, ys, hys, hnext⟩ := h
        exact ⟨hstores, hcurr, hwoken.mono hsched hpc, ys, hys.mono hsched, hnext⟩
  | deletePrev d =>
    cases d with
    | finish => trivial
    | autoremove process curr next =>
      obtain ⟨hwoken, ys, hys, hnext⟩ := h
      exact ⟨hwoken.mono hsched hpc, ys, hys.mono hsched, hnext⟩
  | deleteNext d prev =>
    cases d with
    | finish => exact h.trans (hentry t (hlinked rfl)).symm
    | autoremove process curr next =>
      obtain ⟨hprev, hwoken, ys, ⟨xs, hl, hxs⟩, hnext⟩ := h
      have hcurr : curr ∈ l := by simp [hl]
      exact ⟨hprev.trans (hentry curr hcurr).symm, hwoken.mono hsched hpc, ys,
        Passed.mono ⟨xs, hl, hxs⟩ hsched, hnext⟩
  | wakeNext process curr =>
    obtain ⟨ys, hys, hcurr⟩ := h
    exact ⟨ys, hys.mono hsched, hcurr⟩
  | wakeFunc process curr next =>
    obtain ⟨ys, hys, hnext⟩ := h
    exact ⟨ys, hys.mono hsched, hnext⟩
  | wakeUnlock process => exact Passed.mono h hsched
  | _ => trivial

theorem Fresh.frame {k k' : Links ListHead} (h : Fresh k t p)
    (hlinks : (∃ todo, p = .stores todo .defineWait) → k'.Same k (.entry t)) : Fresh k' t p := by
  cases p with
  | stores todo k =>
    cases k with
    | defineWait => exact ⟨h.1, h.2.congr (Links.storeAll_same (hlinks ⟨todo, rfl⟩) todo)⟩
    | _ => trivial
  | _ => trivial

/-- A task that initialises its entry has it for itself. -/
theorem Inv.fresh_apart (hi : Inv s l) (h : ∃ todo, s.pc u = .stores todo .defineWait) :
    u ∉ l ∧ (s.pc u).locked = false ∧ (s.pc u).between = false := by
  obtain ⟨todo, hpc⟩ := h
  refine ⟨fun hm => ?_, by rw [hpc]; rfl, by rw [hpc]; rfl⟩
  have hl := hi.linkable u hm
  rw [hpc] at hl
  cases hl

/-- What a step of task `t` has to show: the other tasks stay where they are, and only a
task that is being woken may lose its place on the queue. -/
theorem Inv.move (hi : Inv s l) (hpc : s'.pc = Function.update s.pc t p)
    (hlock : ∀ v, v ≠ t → (s'.lock = some v ↔ s.lock = some v))
    (hlocked : s'.lock = some t ↔ p.locked = true)
    (hring : s'.settled.Ring .taskList (l'.map .entry))
    (hin : ∀ v, v ≠ t → v ∈ l' → v ∈ l)
    (hout : ∀ v, v ≠ t → v ∈ l → v ∉ l' → (s.pc v).between = true)
    (hlinkable : t ∈ l' → p.linkable = true) (hlinked : p.linked = true → t ∈ l')
    (hothers : ∀ v, v ≠ t → v ∉ l' → (s.pc v).ready = true → s'.settled.SelfLinked (.entry v))
    (hbare : t ∉ l' → p.ready = true → s'.settled.SelfLinked (.entry t))
    (hlinks : ∀ v, v ≠ t → (∃ todo, s.pc v = .stores todo .defineWait) →
      s'.links.Same s.links (.entry v)) (hfresh : Fresh s'.links t p)
    (hapart : ∀ v ∈ l', s'.lock ≠ some v → s'.links.next (.entry v) ≠ .entry v)
    (hasleep : ∀ v, (s'.sched v).onRq = false →
      s'.pc v = .waitAsleep ∧ v ∈ l' ∧ (s'.sched v).state = .interruptible)
    (hholder : ∀ v, s'.lock = some v → SectionOk s' l' v (s'.pc v)) (hcareful : p ≠ .finishPrev)
    (hwarned : s'.warned = false) : Inv s' l' := by
  have hself : s'.pc t = p := by rw [hpc, Function.update_self]
  have hother : ∀ v, v ≠ t → s'.pc v = s.pc v := fun v hv => by rw [hpc, Function.update_of_ne hv]
  refine ⟨?_, hring, ?_, ?_, ?_, ?_, hapart, hasleep, hholder, ?_, hwarned⟩ <;> intro v <;>
    by_cases hv : v = t
  · rw [hv, hself]
    exact hlocked
  · rw [hother v hv]
    exact (hlock v hv).trans (hi.lock v)
  · rw [hv, hself]
    exact hlinkable
  · rw [hother v hv]
    exact fun hm => hi.linkable v (hin v hv hm)
  · rw [hv, hself]
    exact hlinked
  · rw [hother v hv]
    intro hl
    have hm := hi.linked v hl
    by_contra hn
    rw [Pc.linked_of_between (hout v hv hm hn)] at hl
    cases hl
  · rw [hv, hself]
    exact hbare
  · rw [hother v hv]
    exact hothers v hv
  · rw [hv, hself]
    exact hfresh
  · rw [hother v hv]
    exact (hi.fresh v).frame (hlinks v hv)
  · rw [hv, hself]
    exact hcareful
  · rw [hother v hv]
    exact hi.careful v

/-! ### Steps outside the lock -/

/-- A step of a task without the lock. It stores to its own entry only, and not while that
is in use. -/
theorem Inv.outside (hi : Inv s l) (hlock : s'.lock = s.lock) (hu : (s.pc u).locked = false)
    (hpc : s'.pc = Function.update s.pc u p) (hp : p.locked = false)
    (hlinks : ∀ a, (a = .entry u → u ∈ l ∨ (s.pc u).ready = true) → s'.links.Same s.links a)
    (hsched : ∀ v, (s.sched v).state = .running → (s'.sched v).state = .running)
    (hasleep : ∀ v, (s'.sched v).onRq = false →
      s'.pc v = .waitAsleep ∧ v ∈ l ∧ (s'.sched v).state = .interruptible)
    (hlinkable : u ∈ l → p.linkable = true) (hlinked : p.linked = true → u ∈ l)
    (hready : u ∉ l → p.ready = true →
      (s.pc u).ready = true ∨ (s.pc u).between = false ∧ s'.links.SelfLinked (.entry u))
    (hbetween : (s.pc u).between = true → p.between = true) (hfresh : Fresh s'.links u p)
    (hcareful : p ≠ .finishPrev) (hwarned : s'.warned = s.warned) : Inv s' l := by
  have hother : ∀ v, v ≠ u → s'.pc v = s.pc v := fun v hv => by rw [hpc, Function.update_of_ne hv]
  have hnot : s.lock ≠ some u := fun h => by
    rw [(hi.lock u).mp h] at hu
    cases hu
  have hmem : ∀ a ∈ ListHead.taskList :: l.map .entry, s'.links.Same s.links a := by
    intro a ha
    refine hlinks a ?_
    rintro rfl
    rcases List.mem_cons.mp ha with h | h
    · cases h
    · exact .inl (entry_mem.mp h)
  have hforeign : ∀ v, v ≠ u → s'.links.Same s.links (.entry v) := fun v hv =>
    hlinks _ fun he => absurd (ListHead.entry.inj he) hv
  have htodo : s'.todo = s.todo := by
    cases hl : s.lock with
    | none => rw [todo_of_free hl, todo_of_free (hlock.trans hl)]
    | some t =>
      have htu : t ≠ u := fun h => hnot (h ▸ hl)
      rw [todo_of_lock hl, todo_of_lock (hlock.trans hl), hother t htu]
  have hsettled : ∀ a, s'.links.Same s.links a → s'.settled.Same s.settled a := fun a ha => by
    rw [State.settled, State.settled, htodo]
    exact Links.storeAll_same ha _
  refine hi.move hpc (fun v _ => by rw [hlock]) ?_ (hi.ring.congr fun a ha => hsettled a (hmem a ha))
    (fun _ _ h => h) (fun _ _ h hn => absurd h hn) hlinkable hlinked
    (fun v hv hm hr => (hi.bare v hm hr).congr (hsettled _ (hforeign v hv))) ?_
    (fun v hv _ => hforeign v hv) hfresh ?_ hasleep ?_ hcareful (hwarned.trans hi.warned)
  · rw [hlock, hp]
    exact ⟨fun h => absurd h hnot, fun h => by cases h⟩
  · intro hm hr
    rcases hready hm hr with h | ⟨hb, h⟩
    · exact (hi.bare u hm h).congr (hsettled _ (hlinks _ fun _ => .inr h))
    · rw [State.settled, htodo]
      exact h.congr (Links.storeAll_elsewhere (hi.elsewhere hm hnot hb))
  · intro v hm hl
    rw [(hmem _ (List.mem_cons_of_mem _ (entry_mem.mpr hm))).1]
    exact hi.apart v hm (hlock ▸ hl)
  · intro t ht
    rw [hlock] at ht
    have htu : t ≠ u := fun h => hnot (h ▸ ht)
    rw [hother t htu]
    refine (hi.holder t ht).frame (hi.linked t) hmem hsched ?_
    intro v hb
    by_cases hv : v = u
    · rw [hv, hpc, Function.update_self]
      exact hbetween (hv ▸ hb)
    · rwa [hother v hv]

/-! ### Taking and releasing the lock -/

theorem Inv.asleep_goto (hi : Inv s l) (hrq : (s.sched t).onRq = true) (v : Task)
    (hv : (s.sched v).onRq = false) :
    (s.goto t p).pc v = .waitAsleep ∧ v ∈ l ∧ (s.sched v).state = .interruptible := by
  have hvt : v ≠ t := by
    rintro rfl
    exact absurd (hrq.symm.trans hv) (by decide)
  rw [goto_of_ne s p hvt]
  exact hi.asleep v hv

theorem Inv.settled_free (h : s.lock = none) : s.settled = s.links := by
  rw [State.settled, todo_of_free h]
  rfl

theorem Inv.acquire (hi : Inv s l) (hfree : s.lock = none) (hrq : (s.sched t).onRq = true)
    (hp : p.locked = true) (htodo : p.todo = []) (hlinkable : t ∈ l → p.linkable = true)
    (hlinked : p.linked = true → t ∈ l) (hready : p.ready = true → (s.pc t).ready = true)
    (hfresh : Fresh s.links t p) (hok : ∀ s', SectionOk s' l t p) :
    Inv ({ s with lock := some t }.goto t p) l := by
  have hself := goto_self { s with lock := some t } t p
  have hsettled : (State.goto { s with lock := some t } t p).settled = s.settled := by
    rw [State.settled, State.settled, todo_of_free hfree, todo_of_lock rfl, hself, htodo]
    rfl
  refine hi.move rfl ?_ ⟨fun _ => hp, fun _ => rfl⟩ (hsettled ▸ hi.ring) (fun _ _ h => h)
    (fun _ _ h hn => absurd h hn) hlinkable hlinked ?_ ?_ (fun _ _ _ => .rfl) hfresh ?_
    (hi.asleep_goto hrq) ?_ (fun h => by rw [h] at hp; cases hp) hi.warned
  · intro v hv
    rw [hfree]
    exact ⟨fun h => absurd (Option.some.inj h).symm hv, fun h => by cases h⟩
  · intro v _ hm hr
    rw [hsettled]
    exact hi.bare v hm hr
  · intro hm hr
    rw [hsettled]
    exact hi.bare t hm (hready hr)
  · intro v hm _
    exact hi.apart v hm (by rw [hfree]; exact fun h => by cases h)
  · intro v hv
    have hvt : t = v := Option.some.inj hv
    subst hvt
    rw [hself]
    exact hok _

theorem Inv.release (hi : Inv s l) (ht : s.lock = some t) (hrq : (s.sched t).onRq = true)
    (htodo : (s.pc t).todo = []) (hp : p.locked = false) (hlinkable : t ∈ l → p.linkable = true)
    (hlinked : p.linked = true → t ∈ l) (hready : p.ready = true → (s.pc t).ready = true)
    (hfresh : Fresh s.links t p) (hcareful : p ≠ .finishPrev) :
    Inv ({ s with lock := none }.goto t p) l := by
  have hold : s.settled = s.links := by
    rw [settled_of_lock ht, htodo]
    rfl
  have hring : s.links.Ring .taskList (l.map .entry) := hold ▸ hi.ring
  have hsettled : (State.goto { s with lock := none } t p).settled = s.links := Inv.settled_free rfl
  refine hi.move rfl ?_ ⟨fun h => (by cases h), fun h => ?_⟩ (hsettled ▸ hring) (fun _ _ h => h)
    (fun _ _ h hn => absurd h hn) hlinkable hlinked ?_ ?_ (fun _ _ _ => .rfl) hfresh ?_
    (hi.asleep_goto hrq) (fun v hv => by cases hv) hcareful hi.warned
  · intro v hv
    rw [ht]
    exact ⟨fun h => (by cases h), fun h => absurd (Option.some.inj h).symm hv⟩
  · rw [hp] at h
    cases h
  · intro v _ hm hr
    rw [hsettled, ← hold]
    exact hi.bare v hm hr
  · intro hm hr
    rw [hsettled, ← hold]
    exact hi.bare t hm (hready hr)
  · intro v hm _
    exact hring.next_ne (entry_mem.mpr hm)

/-! ### Steps under the lock -/

/-- A step of the holder, which keeps the lock. -/
theorem Inv.inside (hi : Inv s l) (ht : s.lock = some t) (hlock : s'.lock = some t)
    (hpc : s'.pc = Function.update s.pc t p) (hp : p.locked = true)
    (hring : (s'.links.storeAll p.todo).Ring .taskList (l'.map .entry))
    (hin : ∀ v, v ≠ t → v ∈ l' → v ∈ l)
    (hout : ∀ v, v ≠ t → v ∈ l → v ∉ l' → (s.pc v).between = true)
    (hlinkable : t ∈ l' → p.linkable = true) (hlinked : p.linked = true → t ∈ l')
    (hothers : ∀ v, v ≠ t → v ∉ l' → (s.pc v).ready = true →
      (s'.links.storeAll p.todo).SelfLinked (.entry v))
    (hbare : t ∉ l' → p.ready = true → (s'.links.storeAll p.todo).SelfLinked (.entry t))
    (hlinks : ∀ v, v ∉ l → s.lock ≠ some v → (s.pc v).between = false →
      s'.links.Same s.links (.entry v))
    (hapart : ∀ v ∈ l', v ≠ t → s'.links.next (.entry v) ≠ .entry v)
    (hasleep : ∀ v, (s'.sched v).onRq = false →
      s'.pc v = .waitAsleep ∧ v ∈ l' ∧ (s'.sched v).state = .interruptible)
    (hok : SectionOk s' l' t p) (hwarned : s'.warned = false) : Inv s' l' := by
  have hself : s'.pc t = p := by rw [hpc, Function.update_self]
  have hsettled : s'.settled = s'.links.storeAll p.todo := by rw [settled_of_lock hlock, hself]
  have hfresh : Fresh s'.links t p := by
    cases p with
    | stores todo k => cases k <;> trivial
    | _ => trivial
  refine hi.move hpc (fun v _ => by rw [hlock, ht]) (by rw [hlock, hp]; simp) (hsettled ▸ hring) hin hout
    hlinkable hlinked (hsettled ▸ hothers) (hsettled ▸ hbare) ?_ hfresh ?_ hasleep ?_
    (fun h => by rw [h] at hp; cases hp) hwarned
  · intro v hv hf
    obtain ⟨hm, _, hb⟩ := hi.fresh_apart hf
    refine hlinks v hm ?_ hb
    rw [ht]
    exact fun h => hv (Option.some.inj h).symm
  · intro v hm hl
    refine hapart v hm ?_
    rintro rfl
    exact hl hlock
  · intro v hv
    have hvt : t = v := Option.some.inj (hlock.symm.trans hv)
    subst hvt
    rw [hself]
    exact hok

theorem Inv.ring_section (hi : Inv s l) (ht : s.lock = some t) (htodo : (s.pc t).todo = []) :
    s.links.Ring .taskList (l.map .entry) := by
  have h := hi.ring
  rw [settled_of_lock ht, htodo] at h
  exact h

theorem Inv.section_goto (hi : Inv s l) (ht : s.lock = some t) (hlinked : p.linked = true → t ∈ l')
    (hok : SectionOk s l' t p) : SectionOk (s.goto t p) l' t p := by
  refine hok.frame hlinked (fun _ _ => .rfl) (fun _ h => h) ?_
  intro v hb
  have hv : v ≠ t := by
    rintro rfl
    have hl := (hi.lock v).mp ht
    rw [Pc.locked_of_between hb] at hl
    cases hl
  rw [goto_of_ne s p hv]
  exact hb

/-- A step of the holder that changes the state of a task only, and of none to off the run
queue. -/
theorem Inv.resched (hi : Inv s l) (ht : s.lock = some t) (hrq : (s.sched t).onRq = true)
    (htodo : (s.pc t).todo = []) (hp : p.locked = true) (htodo' : p.todo = [])
    (hlinkable : t ∈ l → p.linkable = true) (hlinked : p.linked = true → t ∈ l)
    (hready : p.ready = true → (s.pc t).ready = true) {sched : Task → Sched}
    (hsched : ∀ v, (sched v).onRq = false → sched v = s.sched v)
    (hok : SectionOk ({ s with sched := sched }.goto t p) l t p) :
    Inv ({ s with sched := sched }.goto t p) l := by
  have hring := hi.ring_section ht htodo
  have hbare : ∀ v, v ∉ l → (s.pc v).ready = true → s.links.SelfLinked (.entry v) := by
    have h := hi.bare
    rw [settled_of_lock ht, htodo] at h
    exact h
  refine hi.inside ht ht rfl hp (by rw [htodo']; exact hring) (fun _ _ h => h)
    (fun _ _ h hn => absurd h hn) hlinkable hlinked ?_ ?_ (fun _ _ _ _ => .rfl) ?_ ?_ hok hi.warned
  · intro v _ hm hr
    rw [htodo']
    exact hbare v hm hr
  · intro hm hr
    rw [htodo']
    exact hbare t hm (hready hr)
  · intro v hm hv
    exact hring.next_ne (entry_mem.mpr hm)
  · intro v hr
    have hv : sched v = s.sched v := hsched v hr
    have h := hi.asleep_goto (p := p) hrq v (hv ▸ hr)
    exact ⟨h.1, h.2.1, (congrArg Sched.state hv).trans h.2.2⟩

/-- A load under the lock. -/
theorem Inv.load (hi : Inv s l) (ht : s.lock = some t) (hrq : (s.sched t).onRq = true)
    (htodo : (s.pc t).todo = []) (hp : p.locked = true) (htodo' : p.todo = [])
    (hlinkable : t ∈ l → p.linkable = true) (hlinked : p.linked = true → t ∈ l)
    (hready : p.ready = true → (s.pc t).ready = true) (hok : SectionOk s l t p) :
    Inv (s.goto t p) l :=
  hi.resched ht hrq htodo hp htodo' hlinkable hlinked hready (fun _ _ => rfl)
    (hi.section_goto ht hlinked hok)

theorem todo_stores {todo : List (Store ListHead)} {k : Storing}
    (h : (Pc.stores todo k).locked = true) : (Pc.stores todo k).todo = todo := by
  cases k with
  | defineWait => cases h
  | listAdd => rfl
  | listDelInit d => rfl

theorem SectionOk.storesOk {todo : List (Store ListHead)} {k : Storing}
    (h : SectionOk s l t (.stores todo k)) (hk : (Pc.stores todo k).locked = true) :
    ∃ d, StoresOk l t d todo := by
  cases k with
  | defineWait => cases hk
  | listAdd => exact ⟨t, h.1⟩
  | listDelInit d =>
    cases d with
    | finish => exact ⟨t, h⟩
    | autoremove process curr next => exact ⟨curr, h.1⟩

theorem StoresOk.tail {w : Store ListHead} {todo : List (Store ListHead)} {d : Task}
    (h : StoresOk l t d (w :: todo)) : StoresOk l t d todo :=
  fun v hv => h v (List.mem_cons_of_mem _ hv)

theorem SectionOk.tail {w : Store ListHead} {todo : List (Store ListHead)} {k : Storing}
    (h : SectionOk s l t (.stores (w :: todo) k)) : SectionOk s l t (.stores todo k) := by
  cases k with
  | defineWait => trivial
  | listAdd => exact ⟨h.1.tail, fun v hv => h.2 v (List.mem_cons_of_mem _ hv)⟩
  | listDelInit d =>
    cases d with
    | finish => exact StoresOk.tail h
    | autoremove process curr next => exact ⟨h.1.tail, h.2⟩

/-- One of the stores that the holder owes. -/
theorem Inv.store (hi : Inv s l) (ht : s.lock = some t) (hrq : (s.sched t).onRq = true)
    {w : Store ListHead} {todo : List (Store ListHead)} {k : Storing}
    (hpc : s.pc t = .stores (w :: todo) k) :
    Inv ({ s with links := s.links.store w }.goto t (.stores todo k)) l := by
  have hlocked : (Pc.stores (w :: todo) k).locked = true := hpc ▸ (hi.lock t).mp ht
  have hlocked' : (Pc.stores todo k).locked = true := by cases k <;> first | rfl | cases hlocked
  have hok := hi.holder t ht
  rw [hpc] at hok
  have hsettled : (s.links.store w).storeAll (Pc.stores todo k).todo = s.settled := by
    rw [settled_of_lock ht, hpc, todo_stores hlocked, todo_stores hlocked']
    rfl
  have htodo : w ∈ s.todo := by
    rw [todo_of_lock ht, hpc, todo_stores hlocked]
    exact List.mem_cons_self ..
  obtain ⟨hlinked, hlinkable, hready⟩ := Pc.stores_same (w :: todo) todo k
  rw [← hpc] at hlinked hlinkable hready
  refine hi.inside ht ht rfl hlocked' ?_ (fun _ _ h => h) (fun _ _ h hn => absurd h hn)
    (fun hm => hlinkable.trans (hi.linkable t hm)) (fun hl => hi.linked t (hlinked.symm.trans hl))
    ?_ ?_ ?_ ?_ (hi.asleep_goto hrq) ?_ hi.warned
  · rw [goto_links, hsettled]
    exact hi.ring
  · intro v _ hm hr
    rw [goto_links, hsettled]
    exact hi.bare v hm hr
  · intro hm hr
    rw [goto_links, hsettled]
    exact hi.bare t hm (hready.symm.trans hr)
  · intro v hm hl hb
    exact Links.store_same (hi.elsewhere hm hl hb w htodo)
  · intro v hm hv
    obtain ⟨d, hd⟩ := hok.storesOk hlocked
    have hsame := hi.apart v hm (by rw [ht]; exact fun h => hv (Option.some.inj h).symm)
    rw [goto_links]
    cases w with
    | prev a b => exact hsame
    | next a b =>
      by_cases ha : a = .entry v
      · subst ha
        have hnext : (s.links.store (.next (.entry v) b)).next (.entry v) = b := Function.update_self ..
        rw [hnext]
        rintro rfl
        exact hv ((hd _ (List.mem_cons_self ..)).2 v rfl hm)
      · have hnext := (Links.store_same (k := s.links) (w := .next a b) ha).1
        rw [hnext]
        exact hsame
  · have hgoto : SectionOk (s.goto t (.stores todo k)) l t (.stores todo k) :=
      hi.section_goto ht (fun hl => hi.linked t (hlinked.symm.trans hl)) hok.tail
    rcases k with _ | _ | (_ | _) <;> exact hgoto

/-- The holder has made its loads and starts to link or to unlink the entry of `d`. -/
theorem Inv.begin (hi : Inv s l) (ht : s.lock = some t) (hrq : (s.sched t).onRq = true)
    (htodo : (s.pc t).todo = []) {todo : List (Store ListHead)} {k : Storing} {d : Task}
    (hp : (Pc.stores todo k).locked = true) (hstores : StoresOk l' t d todo)
    (hring : (s.links.storeAll todo).Ring .taskList (l'.map .entry))
    (hmem : ∀ v, v ≠ d → (v ∈ l' ↔ v ∈ l))
    (hd : d ∉ l' → (s.links.storeAll todo).SelfLinked (.entry d))
    (hwoken : d ≠ t → d ∉ l' ∧ Woken s.sched s.pc d)
    (hlinkable : t ∈ l' → (Pc.stores todo k).linkable = true)
    (hlinked : (Pc.stores todo k).linked = true → t ∈ l')
    (hready : (Pc.stores todo k).ready = true → t = d)
    (hok : SectionOk s l' t (.stores todo k)) : Inv (s.goto t (.stores todo k)) l' := by
  have hbare : ∀ v, v ∉ l' → (v ≠ d → (s.pc v).ready = true) →
      (s.links.storeAll todo).SelfLinked (.entry v) := by
    intro v hm hr
    by_cases hv : v = d
    · exact hv ▸ hd (hv ▸ hm)
    · have hold := hi.bare v (fun h => hm ((hmem v hv).mpr h)) (hr hv)
      rw [settled_of_lock ht, htodo] at hold
      refine hold.congr (Links.storeAll_elsewhere fun w hw he => ?_)
      exact ((hstores w hw).1 v he).elim hm hv
  have hold := hi.ring_section ht htodo
  refine hi.inside ht ht rfl hp ?_ ?_ ?_ hlinkable hlinked ?_ ?_ (fun _ _ _ _ => .rfl) ?_ ?_
    (hi.section_goto ht hlinked hok) hi.warned
  · rw [todo_stores hp]
    exact hring
  · intro v hv hm
    by_cases hvd : v = d
    · subst hvd
      exact absurd hm (hwoken hv).1
    · exact (hmem v hvd).mp hm
  · intro v hv hm hn
    by_cases hvd : v = d
    · subst hvd
      exact (hwoken hv).2.1
    · exact absurd ((hmem v hvd).mpr hm) hn
  · intro v _ hm hr
    rw [todo_stores hp]
    exact hbare v hm fun _ => hr
  · intro hm hr
    rw [todo_stores hp]
    exact hbare t hm fun h => absurd (hready hr) h
  · intro v hm hv
    have hvd : v ≠ d := by
      rintro rfl
      exact (hwoken hv).1 hm
    exact hold.next_ne (entry_mem.mpr ((hmem v hvd).mp hm))
  · intro v hr
    obtain ⟨hpc, hm, hst⟩ := hi.asleep_goto (p := .stores todo k) hrq v hr
    refine ⟨hpc, (hmem v ?_).mpr hm, hst⟩
    rintro rfl
    by_cases hv : v = t
    · subst hv
      exact absurd (hrq.symm.trans hr) (by decide)
    · exact absurd ((hwoken hv).2.2.symm.trans hst) (by decide)

end

end DoEvent.Queue
