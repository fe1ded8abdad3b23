import DoEvent.Pointers
import DoEvent.Transition.Run

/-!
# What a task's position in `wait_event_interruptible` says about its run state

`LocalOk` relates one task's program counter to its own run state and holds in every
reachable state of the machine, stale pointers and reused addresses included: a task is
off the run queue only inside `schedule()`, and between `prepare_to_wait` and
`finish_wait` its entry is linked unless a wake-up has taken it off.
-/

namespace DoEvent

open Transition

def LocalOk : Pc → Sched → Prop
  | .waitRetest _, p | .waitSignal _, p | .waitSchedule _, p | .waitFinish _, p =>
    p.onRq = true ∧ p.linked = true
  | .waitAsleep _, p =>
    (p.onRq = false → p.linked = true ∧ p.state = .interruptible) ∧
    (p.onRq = true → p.state = .running)
  | .waitPrepare _, p => p.onRq = true ∧ p.state = .running
  | _, p => p.onRq = true ∧ p.state = .running ∧ p.linked = false

theorem LocalOk.interruptible_of_blocked {pc : Pc} {p : Sched} (h : LocalOk pc p)
    (hr : p.onRq = false) : p.state = .interruptible := by
  cases pc with
  | waitAsleep e => exact (h.1 hr).2
  | _ =>
    have hrun : p.onRq = true := h.1
    rw [hr] at hrun
    cases hrun

def LocalInv (s : State) : Prop := ∀ t, LocalOk (s.pc t) (s.sched t)

theorem LocalOk.wake_onRq {pc : Pc} {p : Sched} (h : LocalOk pc p) : (wake p).onRq = true := by
  by_cases hr : p.onRq = true
  · rcases wake_cases p with ⟨_, hw⟩ | ⟨_, _, hw⟩ | ⟨_, _, hw⟩ <;> simp [hw, hr]
  · have hoff : p.onRq = false := by simpa using hr
    rw [wake_asleep p (h.interruptible_of_blocked hoff) hoff]

/-- Off the run queue inside `schedule()`, in a wait on `a`. -/
def State.blockedOn (s : State) (t : Task) (a : Addr) : Prop :=
  s.pc t = .waitAsleep a ∧ (s.sched t).state = .interruptible ∧ (s.sched t).onRq = false

instance (s : State) (t : Task) (a : Addr) : Decidable (s.blockedOn t a) :=
  inferInstanceAs (Decidable (_ ∧ _))

theorem LocalOk.wake {pc : Pc} {p : Sched} (h : LocalOk pc p) : LocalOk pc (wake p) := by
  rcases wake_cases p with ⟨_, hw⟩ | ⟨hs, hr, hw⟩ | ⟨hs, hr, hw⟩
  · rwa [hw]
  · rw [hw]
    cases pc <;> simp_all [LocalOk]
  · rw [hw]
    cases pc <;> simp_all [LocalOk]

theorem LocalOk.signalWakeUp {pc : Pc} {p : Sched} (h : LocalOk pc p) :
    LocalOk pc (signalWakeUp p) := by
  rcases signalWakeUp_cases p with ⟨hs, hw⟩ | ⟨hs, hr, hw⟩ | ⟨hs, hr, hw⟩ <;> rw [hw] <;>
    cases pc <;> simp_all [LocalOk]

theorem LocalOk.entry {p : Sched} (h : LocalOk .user p) (c : Cred) (k : Call) :
    LocalOk (entry c k) p := by
  cases k <;> simp only [DoEvent.entry] <;> (try split) <;> exact h

theorem Move.localOk {s : State} {x : Action} {e : Effect} {p : Pc} (hm : Move s x e p)
    (h : LocalOk (s.pc x.task) (s.sched x.task)) :
    LocalOk p ((apply s x.task e).sched x.task) := by
  rw [apply_sched_self]
  cases hm with
  | call t c k hpc =>
    simp only [Action.task, hpc] at h ⊢
    exact h.entry c k
  | nomem t c hpc =>
    simp only [Action.task, hpc] at h ⊢
    exact h
  | kmalloc t c a hpc hfree =>
    simp only [Action.task, hpc] at h ⊢
    exact h
  | posix t => exact h.signalWakeUp
  | deliver t hpc =>
    simp only [Action.task, hpc] at h ⊢
    exact h
  | run t e p hrq hnext =>
    have hf := Flow.of_next hnext
    simp only [Action.task] at h ⊢
    generalize hpc : s.pc t = q at hf h
    cases hf with
    | waitEnter b hc => exact ⟨h.1, h.2.1⟩
    | waitPrepare b => exact ⟨h.1, rfl⟩
    | waitSchedule b =>
      have hlinked : (s.sched t).linked = true := h.2
      simp only [LocalOk, schedule]
      cases hs : (s.sched t).state with
      | running => simp [hs, hrq]
      | interruptible => cases hp : (s.sched t).sigPending <;> simp [hrq, hlinked]
    | waitAwake b => exact ⟨hrq, h.2 hrq⟩
    | waitFinish b => exact ⟨h.1, rfl, rfl⟩
    | closeWrite b process =>
      have hw : wake (s.sched t) = s.sched t := wake_running _ h.2.1
      cases process <;> simp only [Effect.wakes, if_true, Bool.false_eq_true, if_false, hw, ite_self] <;>
        exact h
    | sigWake b n =>
      have hw : wake (s.sched t) = s.sched t := wake_running _ h.2.1
      simp only [Effect.wakes, hw, ite_self]
      exact h
    | _ => exact h

theorem LocalInv.step {s s' : State} {x : Action} (hi : LocalInv s) (h : step s x = some s') :
    LocalInv s' := by
  obtain ⟨e, p, hm, rfl⟩ := step_eq_some.mp h
  intro u
  by_cases hu : u = x.task
  · subst hu
    simpa using hm.localOk (hi _)
  · simp only [goto_pc, goto_sched, apply_pc, Function.update_of_ne hu]
    rcases apply_sched_of_ne_cases s x.task e hu with hs | hs <;> rw [hs]
    · exact hi u
    · exact (hi u).wake

theorem doeventInit_localInv (mem : Addr → Event) (user : Task → UserMem) :
    LocalInv (doeventInit mem user) := fun _ => ⟨rfl, rfl, rfl⟩

/-! ### Entries on the queues of a set of records

The records are those of the listed events, or any larger set whose members are not
handed out again. -/

/-- A queue entry belongs to a task that waits on that record, and stands there once. -/
structure EntriesOn (L : Addr → Prop) (s : State) : Prop where
  queued : ∀ t a, L a → t ∈ (s.mem a).queue → s.holds t .waiting a ∧ (s.sched t).linked = true
  nodup : ∀ a, L a → (s.mem a).queue.Nodup

/-- The entries on the queues of listed events. -/
structure EntriesOk (s : State) : Prop where
  queued : ∀ t, ∀ a ∈ s.eventlist, t ∈ (s.mem a).queue →
    s.holds t .waiting a ∧ (s.sched t).linked = true
  nodup : ∀ a ∈ s.eventlist, (s.mem a).queue.Nodup

theorem entriesOk_iff {s : State} : EntriesOk s ↔ EntriesOn (· ∈ s.eventlist) s :=
  ⟨fun h => ⟨h.queued, h.nodup⟩, fun h => ⟨h.queued, h.nodup⟩⟩

theorem LocalOk.unlinked {pc : Pc} {p : Sched} (h : LocalOk pc p) (hn : pc.hold = none) :
    p.linked = false := by
  cases pc <;> first | exact h.2.2 | cases hn

theorem holds_unique {s : State} {t : Task} {k k' : Hold} {a b : Addr} (h : s.holds t k a)
    (h' : s.holds t k' b) : k = k' ∧ a = b := by
  have he := h.symm.trans h'
  simpa using he

/-- A linked waiter leaves its call only through `finish_wait`. -/
theorem Move.stays_waiting {s : State} {x : Action} {e : Effect} {p : Pc} {a : Addr}
    (hm : Move s x e p) (hl : LocalOk (s.pc x.task) (s.sched x.task))
    (hw : s.holds x.task .waiting a) (hlinked : (s.sched x.task).linked = true)
    (hf : e ≠ .finishWait a) : p.hold = some (.waiting, a) := by
  cases hm with
  | call t c k hpc | nomem t c hpc | kmalloc t c b hpc hfree =>
    simp only [State.holds, Action.task, hpc] at hw
    cases hw
  | posix t | deliver t hpc => exact hw
  | run t e p hrq hnext =>
    have hf := Flow.of_next hnext
    simp only [State.holds, Action.task] at hw hl hlinked
    generalize hpc : s.pc t = q at hf hw hl
    cases hf with
    | waitReset b | waitPast b hc | waitEnter b hc =>
      rw [hl.2.2] at hlinked
      cases hlinked
    | waitFinish b =>
      cases hw
      exact absurd rfl hf
    | _ => first | exact hw | cases hw

section
variable {L L' : Addr → Prop} {s : State} {x : Action} {e : Effect} {p : Pc}

/-- The entries are in order after a step that only keeps old entries, or adds the one of
the task itself. -/
theorem EntriesOn.of_entries (he : EntriesOn L s) (hl : LocalInv s) (hm : Move s x e p)
    (hlist : ∀ a, L' a → ((apply s x.task e).mem a).queue ≠ [] → L a)
    (hmem : ∀ u a, L a → u ∈ ((apply s x.task e).mem a).queue →
      ((apply s x.task e).sched u).linked = true ∧
      ((u ∈ (s.mem a).queue ∧ (u = x.task → e ≠ .finishWait a)) ∨
        (u = x.task ∧ p.hold = some (.waiting, a))))
    (hnodup : ∀ a, L a → ((apply s x.task e).mem a).queue.Nodup) :
    EntriesOn L' ((apply s x.task e).goto x.task p) := by
  constructor
  · intro u a ha hu
    rw [goto_mem] at hu
    have hal := hlist a ha (List.ne_nil_of_mem hu)
    obtain ⟨hlinked, hcase⟩ := hmem u a hal hu
    refine ⟨holds_goto.mpr ?_, hlinked⟩
    rcases hcase with ⟨hold, hne⟩ | hnew
    · obtain ⟨hw, hk⟩ := he.queued u a hal hold
      by_cases hux : u = x.task
      · subst hux
        exact .inl ⟨rfl, hm.stays_waiting (hl _) hw hk (hne rfl)⟩
      · exact .inr ⟨hux, hw⟩
    · exact .inl hnew
  · intro a ha
    rw [goto_mem]
    by_cases hq : ((apply s x.task e).mem a).queue = []
    · rw [hq]
      exact List.nodup_nil
    · exact hnodup a (hlist a ha hq)

/-- Effects that leave every queue and every entry alone. -/
def Effect.quiet : Effect → Bool
  | .openSection .. | .prepareToWait _ | .finishWait _ | .wakeUpAll _ => false
  | .closeSection _ process => !process
  | _ => true

theorem apply_queue_of_quiet (t : Task) (hq : e.quiet = true) (a : Addr) :
    ((apply s t e).mem a).queue = (s.mem a).queue := by
  rw [apply_queue]
  cases e with
  | closeSection b process => cases process <;> simp_all [Effect.quiet, Effect.wakes]
  | _ => first | rfl | cases hq

theorem apply_linked_of_quiet (t : Task) (hq : e.quiet = true) (u : Task) :
    ((apply s t e).sched u).linked = (s.sched u).linked := by
  by_cases hu : u = t
  · subst hu
    rw [apply_sched_self]
    cases e with
    | closeSection b process => cases process <;> simp_all [Effect.quiet, Effect.wakes]
    | schedule =>
      simp only [schedule]
      split
      · rfl
      · split <;> rfl
    | posix =>
      rcases signalWakeUp_cases (s.sched u) with ⟨_, h⟩ | ⟨_, _, h⟩ | ⟨_, _, h⟩ <;> rw [h]
    | _ => first | rfl | cases hq
  · rw [apply_sched_of_ne s t e hu]
    cases e with
    | closeSection b process => cases process <;> simp_all [Effect.quiet, Effect.wakes]
    | _ => first | rfl | cases hq

theorem apply_listed {t : Task} {a : Addr} (h : a ∈ (apply s t e).eventlist) :
    a ∈ s.eventlist ∨ ∃ c, e = .openSection c a := by
  rw [apply_eventlist] at h
  cases e with
  | openSection c b =>
    rcases List.mem_append.mp h with h | h
    · exact .inl h
    · exact .inr ⟨c, by rw [List.mem_singleton.mp h]⟩
  | closeSection b process => exact .inl (List.mem_of_mem_erase h)
  | _ => exact .inl h

/-- A wake-up takes off exactly the entries of the tasks it wakes. -/
theorem EntriesOn.mem_wakes (he : EntriesOn L s) {t : Task} {b : Addr} (hb : L b)
    (hw : e.wakes = some b) (u : Task) :
    (u ∈ ((apply s t e).mem b).queue ↔
      u ∈ (s.mem b).queue ∧ ((apply s t e).sched u).linked = true) := by
  have hqueue : ((apply s t e).mem b).queue = (wakeUpCommon (s.mem b).queue s.sched).1 := by
    rw [apply_queue]
    cases e <;> simp_all [Effect.wakes]
  rw [hqueue, mem_wakeUpCommon (he.nodup b hb)]
  refine and_congr_right fun hu => ?_
  have hl := (he.queued u b hb hu).2
  rw [apply_sched_of_wakes s t e hw, if_pos hu]
  rcases wake_cases (s.sched u) with ⟨hs, hwk⟩ | ⟨hs, hr, hwk⟩ | ⟨hs, hr, hwk⟩ <;>
    simp [tryToWakeUp, *]

theorem apply_queue_of_wakes {t : Task} {a b : Addr} (hw : e.wakes = some b) (hab : a ≠ b) :
    ((apply s t e).mem a).queue = (s.mem a).queue := by
  rw [apply_queue]
  cases e <;> simp_all [Effect.wakes, Ne.symm hab]

theorem EntriesOn.wakes (he : EntriesOn L s) (hl : LocalInv s) (hm : Move s x e p)
    (hL : ∀ a, L' a → L a ∨ ∃ c, e = .openSection c a) {b : Addr} (hw : e.wakes = some b) (hb : L b) :
    EntriesOn L' ((apply s x.task e).goto x.task p) := by
  have hne : ∀ a, e ≠ .finishWait a := by
    rintro a rfl
    cases hw
  refine he.of_entries hl hm ?_ ?_ ?_
  · intro a ha _
    rcases hL a ha with ha | ⟨c, rfl⟩
    · exact ha
    · cases hw
  · intro u a ha hu
    by_cases hab : a = b
    · subst hab
      obtain ⟨hq, hlinked⟩ := (he.mem_wakes ha hw u).mp hu
      exact ⟨hlinked, .inl ⟨hq, fun _ => hne a⟩⟩
    · rw [apply_queue_of_wakes hw hab] at hu
      obtain ⟨hwait, hlinked⟩ := he.queued u a ha hu
      have hub : u ∉ (s.mem b).queue := fun h => hab (holds_unique hwait (he.queued u b hb h).1).2
      rw [apply_sched_of_wakes s x.task e hw, if_neg hub]
      exact ⟨hlinked, .inl ⟨hu, fun _ => hne a⟩⟩
  · intro a ha
    by_cases hab : a = b
    · subst hab
      have hqueue : ((apply s x.task e).mem a).queue = (wakeUpCommon (s.mem a).queue s.sched).1 := by
        rw [apply_queue]
        cases e <;> simp_all [Effect.wakes]
      rw [hqueue]
      exact (he.nodup a ha).sublist (wakeUpCommon_sublist _ _)
    · rw [apply_queue_of_wakes hw hab]
      exact he.nodup a ha

theorem EntriesOn.prepareToWait (he : EntriesOn L s) (hl : LocalInv s) {b : Addr}
    (hm : Move s x (.prepareToWait b) p)
    (hL : ∀ a, L' a → L a ∨ ∃ c, (.prepareToWait b : Effect) = .openSection c a) :
    EntriesOn L' ((apply s x.task (.prepareToWait b)).goto x.task p) := by
  obtain ⟨hpc, rfl⟩ := hm.origin
  have hqueue : ∀ a, ((apply s x.task (.prepareToWait b)).mem a).queue =
      if a = b ∧ (s.sched x.task).linked = false then x.task :: (s.mem a).queue
      else (s.mem a).queue := by
    intro a
    simp [apply_queue]
  have hlinked : ∀ u, u ≠ x.task → (apply s x.task (.prepareToWait b)).sched u = s.sched u := by
    intro u hu
    simp [apply_sched_of_ne s x.task _ hu, Effect.wakes]
  have hself : ((apply s x.task (.prepareToWait b)).sched x.task).linked = true := by
    simp [apply_sched_self]
  refine he.of_entries hl hm ?_ ?_ ?_
  · intro a ha _
    rcases hL a ha with ha | ⟨c, hc⟩
    · exact ha
    · cases hc
  · intro u a ha hu
    rw [hqueue] at hu
    by_cases hux : u = x.task
    · subst hux
      refine ⟨hself, ?_⟩
      split at hu
      next hb => exact .inr ⟨rfl, by rw [hb.1]; rfl⟩
      · exact .inl ⟨hu, fun _ => by simp⟩
    · have hold : u ∈ (s.mem a).queue := by
        split at hu
        · exact (List.mem_cons.mp hu).resolve_left hux
        · exact hu
      rw [hlinked u hux]
      exact ⟨(he.queued u a ha hold).2, .inl ⟨hold, fun h => absurd h hux⟩⟩
  · intro a ha
    rw [hqueue]
    split
    next hb =>
      refine List.nodup_cons.mpr ⟨fun ht => ?_, he.nodup a ha⟩
      have hlt := (he.queued x.task a ha ht).2
      rw [hb.2] at hlt
      cases hlt
    · exact he.nodup a ha

theorem EntriesOn.finishWait (he : EntriesOn L s) (hl : LocalInv s) {b : Addr}
    (hm : Move s x (.finishWait b) p)
    (hL : ∀ a, L' a → L a ∨ ∃ c, (.finishWait b : Effect) = .openSection c a) :
    EntriesOn L' ((apply s x.task (.finishWait b)).goto x.task p) := by
  obtain ⟨hpc, rfl⟩ := hm.origin
  have hbt : s.holds x.task .waiting b := by
    rw [State.holds, hpc]
    rfl
  have hqueue : ∀ a, ((apply s x.task (.finishWait b)).mem a).queue =
      if a = b ∧ (s.sched x.task).linked = true then (s.mem a).queue.erase x.task
      else (s.mem a).queue := by
    intro a
    simp [apply_queue]
  have hlinked : ∀ u, u ≠ x.task → (apply s x.task (.finishWait b)).sched u = s.sched u := by
    intro u hu
    simp [apply_sched_of_ne s x.task _ hu, Effect.wakes]
  refine he.of_entries hl hm ?_ ?_ ?_
  · intro a ha _
    rcases hL a ha with ha | ⟨c, hc⟩
    · exact ha
    · cases hc
  · intro u a ha hu
    have hold : u ∈ (s.mem a).queue := by
      rw [hqueue] at hu
      split at hu
      · exact List.mem_of_mem_erase hu
      · exact hu
    by_cases hux : u = x.task
    · -- The task's own entry can only have been on the queue of `b`, and is gone from there.
      exfalso
      subst hux
      obtain ⟨hw, hk⟩ := he.queued x.task a ha hold
      have hab := (holds_unique hw hbt).2
      rw [hqueue, if_pos ⟨hab, hk⟩] at hu
      exact ((he.nodup a ha).mem_erase_iff.mp hu).1 rfl
    · rw [hlinked u hux]
      exact ⟨(he.queued u a ha hold).2, .inl ⟨hold, fun h => absurd h hux⟩⟩
  · intro a ha
    rw [hqueue]
    split
    · exact (he.nodup a ha).erase x.task
    · exact he.nodup a ha

theorem EntriesOn.openSection (he : EntriesOn L s) (hl : LocalInv s) {c : Cred} {b : Addr}
    (hm : Move s x (.openSection c b) p)
    (hL : ∀ a, L' a → L a ∨ ∃ c', (.openSection c b : Effect) = .openSection c' a) (hb : ¬ L b) :
    EntriesOn L' ((apply s x.task (.openSection c b)).goto x.task p) := by
  have hqueue : ∀ a, L a → ((apply s x.task (.openSection c b)).mem a).queue = (s.mem a).queue := by
    intro a ha
    have hab : a ≠ b := fun h => hb (h ▸ ha)
    simp [apply_queue, hab]
  have hsched : ∀ u, (apply s x.task (.openSection c b)).sched u = s.sched u := fun _ => rfl
  refine he.of_entries hl hm ?_ ?_ ?_
  · intro a ha hne
    rcases hL a ha with ha | ⟨c', hc⟩
    · exact ha
    · cases hc
      exact absurd (by simp [apply_queue]) hne
  · intro u a ha hu
    rw [hqueue a ha] at hu
    rw [hsched]
    exact ⟨(he.queued u a ha hu).2, .inl ⟨hu, fun _ => by simp⟩⟩
  · intro a ha
    rw [hqueue a ha]
    exact he.nodup a ha

/-- The entries stay in order as long as no record of the set is filled in again and only
queues of the set are woken. -/
theorem EntriesOn.move (he : EntriesOn L s) (hl : LocalInv s) (hm : Move s x e p)
    (hL : ∀ a, L' a → L a ∨ ∃ c, e = .openSection c a)
    (hopen : ∀ c a, e = .openSection c a → ¬ L a) (hw : ∀ b, e.wakes = some b → L b) :
    EntriesOn L' ((apply s x.task e).goto x.task p) := by
  have hquiet : e.quiet = true → EntriesOn L' ((apply s x.task e).goto x.task p) := by
    intro hq
    refine he.of_entries hl hm ?_ ?_ ?_
    · intro a ha _
      rcases hL a ha with ha | ⟨c, rfl⟩
      · exact ha
      · cases hq
    · intro u a ha hu
      rw [apply_queue_of_quiet x.task hq] at hu
      rw [apply_linked_of_quiet x.task hq]
      refine ⟨(he.queued u a ha hu).2, .inl ⟨hu, fun _ hf => ?_⟩⟩
      subst hf
      cases hq
    · intro a ha
      rw [apply_queue_of_quiet x.task hq]
      exact he.nodup a ha
  cases e with
  | openSection c b => exact he.openSection hl hm hL (hopen c b rfl)
  | closeSection b process =>
    cases process with
    | false => exact hquiet rfl
    | true => exact he.wakes hl hm hL rfl (hw b rfl)
  | prepareToWait b => exact he.prepareToWait hl hm hL
  | finishWait b => exact he.finishWait hl hm hL
  | wakeUpAll b => exact he.wakes hl hm hL rfl (hw b rfl)
  | _ => exact hquiet rfl

theorem EntriesOk.move (he : EntriesOk s) (hl : LocalInv s) (hi : ListInv s) (hm : Move s x e p)
    (hw : ∀ b, e.wakes = some b → b ∈ s.eventlist) :
    EntriesOk ((apply s x.task e).goto x.task p) := by
  refine entriesOk_iff.mpr ((entriesOk_iff.mp he).move hl hm (fun a => apply_listed) ?_ hw)
  rintro c a rfl
  exact (hi.owned x.task a (.inl (holds_of_pc hm.origin.1 rfl))).2.1

/-- A linked entry is on the queue of the record that its task waits on. -/
theorem EntriesOn.linked_move (he : EntriesOn L s) (hl : LocalInv s) (hm : Move s x e p)
    (hwait : ∀ t a, s.holds t .waiting a → L a)
    (hlinked : ∀ t a, s.holds t .waiting a → (s.sched t).linked = true → t ∈ (s.mem a).queue)
    (hopen : ∀ c a, e = .openSection c a → ¬ L a) (hw : ∀ b, e.wakes = some b → L b) {u : Task}
    {a : Addr} (hu : ((apply s x.task e).goto x.task p).holds u .waiting a)
    (hk : ((apply s x.task e).sched u).linked = true) : u ∈ ((apply s x.task e).mem a).queue := by
  have ho := hm.origin
  have hquiet : e.quiet = true → u ∈ ((apply s x.task e).mem a).queue := by
    intro hq
    rw [apply_linked_of_quiet x.task hq] at hk
    rw [apply_queue_of_quiet x.task hq]
    rcases hm.holds hu with hu | ⟨rfl, t, c, i, rfl, hpc, _⟩
    · exact hlinked u a hu hk
    · -- A wait starts with its entry not linked anywhere.
      rw [Action.task, (hl t).unlinked (by rw [hpc]; rfl)] at hk
      cases hk
  have hwakes : ∀ b, e.wakes = some b → p.hold ≠ some (.waiting, a) →
      u ∈ ((apply s x.task e).mem a).queue := by
    intro b hb hp
    have hold : s.holds u .waiting a := by
      rcases holds_goto.mp hu with ⟨_, hpa⟩ | ⟨_, hu⟩
      · exact absurd hpa hp
      · exact hu
    -- A task on the woken queue stays there as long as its entry is linked; any other one
    -- is on another queue.
    by_cases hub : u ∈ (s.mem b).queue
    · have hab := (holds_unique hold (he.queued u b (hw b hb) hub).1).2
      subst hab
      exact (he.mem_wakes (hw a hb) hb u).mpr ⟨hub, hk⟩
    · rw [apply_sched_of_wakes s x.task e hb, if_neg hub] at hk
      have hmem := hlinked u a hold hk
      have hab : a ≠ b := fun h => hub (h ▸ hmem)
      rwa [apply_queue_of_wakes hb hab]
  cases e with
  | openSection c b =>
    obtain ⟨hpc, rfl⟩ := ho
    rcases holds_goto.mp hu with ⟨_, hp⟩ | ⟨_, hu⟩
    · cases hp
    · have hab : a ≠ b := fun h => hopen c b rfl (h ▸ hwait u a hu)
      rw [apply_queue]
      simpa [hab] using hlinked u a hu hk
  | closeSection b process =>
    obtain ⟨_, rfl⟩ := ho
    cases process with
    | false => exact hquiet rfl
    | true => exact hwakes b rfl (by simp [Pc.hold])
  | prepareToWait b =>
    obtain ⟨hpc, rfl⟩ := ho
    rw [apply_queue]
    rcases holds_goto.mp hu with ⟨rfl, hp⟩ | ⟨hux, hu⟩
    · cases hp
      dsimp only
      split
      · exact List.mem_cons_self ..
      next h =>
        refine hlinked _ _ (holds_of_pc hpc rfl) ?_
        simpa using h
    · rw [apply_sched_of_ne s x.task _ hux] at hk
      have hold := hlinked u a hu hk
      dsimp only
      split
      · exact List.mem_cons_of_mem _ hold
      · exact hold
  | finishWait b =>
    obtain ⟨hpc, rfl⟩ := ho
    rcases holds_goto.mp hu with ⟨_, hp⟩ | ⟨hux, hu⟩
    · cases hp
    · rw [apply_sched_of_ne s x.task _ hux] at hk
      have hold := hlinked u a hu hk
      rw [apply_queue]
      dsimp only
      split
      · exact (List.mem_erase_of_ne hux).mpr hold
      · exact hold
  | wakeUpAll b =>
    obtain ⟨n, hpc, rfl⟩ := ho
    exact hwakes b rfl (by simp [Pc.hold])
  | _ => exact hquiet rfl

end

theorem doeventInit_entriesOk (mem : Addr → Event) (user : Task → UserMem) :
    EntriesOk (doeventInit mem user) where
  queued := fun _ _ h => absurd h List.not_mem_nil
  nodup := fun _ h => absurd h List.not_mem_nil

/-! ### Wait queues while no event is unlinked

A linked entry is on the queue of the event its task waits on. This needs the pointers of
waiters and signallers to stay valid, so it is stated for runs in which no close reaches
its write section. -/

def NoUnlink (s : State) (x : Action) : Prop := ∀ b, ¬ Unlinks s x b

structure QueueInv (s : State) : Prop where
  list : ListInv s
  own : LocalInv s
  entries : EntriesOk s
  waiting : ∀ t a, s.holds t .waiting a → a ∈ s.eventlist
  signalling : ∀ t a, s.holds t .signalling a → a ∈ s.eventlist
  linked : ∀ t a, s.holds t .waiting a → (s.sched t).linked = true → t ∈ (s.mem a).queue

theorem NoUnlink.alone {s : State} {x : Action} (h : NoUnlink s x) : UnlinksAlone s x :=
  fun b hb => absurd hb (h b)

section
variable {s : State} {x : Action} {e : Effect} {p : Pc}

theorem Move.listed (hm : Move s x e p) (hn : NoUnlink s x) {a : Addr} (ha : a ∈ s.eventlist) :
    a ∈ (apply s x.task e).eventlist := by
  rw [apply_eventlist]
  cases e with
  | closeSection b process => exact absurd hm.unlinks (hn b)
  | openSection c b => exact List.mem_append_left _ ha
  | _ => exact ha

theorem QueueInv.wakes_listed (hi : QueueInv s) (hm : Move s x e p) (hn : NoUnlink s x) {b : Addr}
    (hw : e.wakes = some b) : b ∈ s.eventlist := by
  have ho := hm.origin
  cases e with
  | closeSection a process => exact absurd hm.unlinks (hn a)
  | wakeUpAll a =>
    obtain ⟨n, hpc, _⟩ := ho
    cases hw
    exact hi.signalling x.task b (holds_of_pc hpc rfl)
  | _ => cases hw

theorem QueueInv.linked_step (hi : QueueInv s) (hm : Move s x e p) (hn : NoUnlink s x) {u : Task}
    {a : Addr} (hu : ((apply s x.task e).goto x.task p).holds u .waiting a)
    (hl : ((apply s x.task e).sched u).linked = true) :
    u ∈ ((apply s x.task e).mem a).queue := by
  refine (entriesOk_iff.mp hi.entries).linked_move hi.own hm hi.waiting hi.linked ?_
    (fun b => hi.wakes_listed hm hn) hu hl
  rintro c b rfl
  exact (hi.list.owned x.task b (.inl (holds_of_pc hm.origin.1 rfl))).2.1

end

theorem QueueInv.step {s s' : State} {x : Action} (hi : QueueInv s) (hn : NoUnlink s x)
    (h : step s x = some s') : QueueInv s' := by
  have hlist := hi.list.step hn.alone h
  have hown := hi.own.step h
  obtain ⟨e, p, hm, rfl⟩ := step_eq_some.mp h
  refine ⟨hlist, hown, hi.entries.move hi.own hi.list hm fun b => hi.wakes_listed hm hn, ?_, ?_,
    fun u a => hi.linked_step hm hn⟩
  · intro u a hu
    rcases hm.holds hu with hu | ⟨_, t, c, i, _, _, hr⟩
    · exact hm.listed hn (hi.waiting u a hu)
    · exact hm.listed hn (readSection_some hr).1
  · intro u a hu
    rcases hm.holds hu with hu | ⟨_, t, c, i, _, _, hr⟩
    · exact hm.listed hn (hi.signalling u a hu)
    · exact hm.listed hn (readSection_some hr).1

theorem doeventInit_queueInv (mem : Addr → Event) (user : Task → UserMem) :
    QueueInv (doeventInit mem user) where
  list := doeventInit_listInv mem user
  own := doeventInit_localInv mem user
  entries := doeventInit_entriesOk mem user
  waiting := fun t a h => by cases h
  signalling := fun t a h => by cases h
  linked := fun t a h => by cases h

theorem localInv_run {ok : State → Action → Prop} {s s' : State} {xs : List Action}
    (h : Run step ok s xs s') (hi : LocalInv s) : LocalInv s' :=
  h.invariant LocalInv hi fun _ _ _ hl _ hstep => hl.step hstep

theorem onRq_of_user {s : State} (hl : LocalInv s) {t : Task} (ht : s.pc t = .user) :
    (s.sched t).onRq = true := by
  have hlocal := hl t
  rw [ht] at hlocal
  exact hlocal.1

theorem localInv_reachable {mem : Addr → Event} {user : Task → UserMem} {xs : List Action} {s : State}
    {ok : State → Action → Prop} (hrun : Run step ok (doeventInit mem user) xs s) : LocalInv s :=
  localInv_run hrun (doeventInit_localInv mem user)

end DoEvent
