import DoEvent.Ids
import DoEvent.Waiters

/-!
# Records that are not handed out too early

A close frees the record although other calls may still hold a pointer to it. As long as
`kmalloc` does not hand the address out again before the last close, sig or wait that
looked the record up is over, the stale pointers do no harm to any live event: nobody else
owns the record, and its queue stays in order until its last waiter has left. Events may
be closed under their waiters here. Two closes of one record may not overlap: they would
free it twice, and the model says nothing of what the allocator hands out after that.
-/

namespace DoEvent

open Transition

/-- The calls that come back to the record: close to unlink and free it, sig and wait to
its condition and its queue. -/
def Hold.lingers : Hold → Bool
  | .unlinking | .freeing | .waiting | .signalling => true
  | .opening | .opened | .changing => false

/-- Listed, or still in the hands of a close, a sig or a wait. -/
def State.tracked (s : State) (a : Addr) : Prop :=
  a ∈ s.eventlist ∨ ∃ t k, s.holds t k a ∧ k.lingers = true

/-- `kmalloc` does not hand out an address at which a close, a sig or a wait is still busy. -/
def NoReuse (s : State) (x : Action) : Prop :=
  ∀ t a, x = .kmalloc t (some a) → ∀ u k, s.holds u k a → k.lingers = false

def noReuseTest (k : Task) (s : State) : Action → Bool
  | .kmalloc _ (some a) =>
    (List.range k).all fun u => (s.pc u).hold.all fun h => h.2 != a || !h.1.lingers
  | _ => true

theorem noReuse_of_test {k : Task} {s : State} {x : Action} (hi : s.idleFrom k)
    (h : noReuseTest k s x = true) : NoReuse s x := by
  rintro t a rfl u kind hu
  rcases hi.test h u with huser | htest
  · exact absurd huser (ne_user_of_holds hu)
  · rw [hu] at htest
    simpa using htest

structure HeapInv (s : State) : Prop where
  nodup : s.eventlist.Nodup
  used : ∀ a ∈ s.eventlist, s.inUse a = true
  sentinelUsed : s.inUse allevents = true
  sentinel : ¬ s.tracked allevents
  opening : ∀ t a, s.holds t .opening a → s.inUse a = true ∧ a ≠ allevents ∧ ¬ s.tracked a
  openingOnce : ∀ t u a, s.holds t .opening a → s.holds u .opening a → t = u
  freeing : ∀ t a, s.holds t .freeing a → a ∉ s.eventlist

theorem doeventInit_heapInv (mem : Addr → Event) (user : Task → UserMem) :
    HeapInv (doeventInit mem user) where
  nodup := List.nodup_nil
  used := fun a ha => absurd ha List.not_mem_nil
  sentinelUsed := rfl
  sentinel := by
    rintro (h | ⟨t, k, h, _⟩)
    · exact absurd h List.not_mem_nil
    · cases h
  opening := fun t a h => by cases h
  openingOnce := fun t u a h => by cases h
  freeing := fun t a h => by cases h

section
variable {s : State} {x : Action} {e : Effect} {p : Pc} {a b : Addr}

theorem tracked_of_holds {t : Task} {k : Hold} (h : s.holds t k a) (hk : k.lingers = true) :
    s.tracked a := .inr ⟨t, k, h, hk⟩

theorem Gains.tracked {k : Hold} (hg : Gains s x e a k) (hk : k.lingers = true) (hm : Move s x e p) :
    s.tracked a := by
  cases k with
  | freeing =>
    obtain ⟨process, rfl⟩ := hg
    exact tracked_of_holds (holds_of_pc hm.origin.1 rfl) rfl
  | unlinking | waiting | signalling =>
    obtain ⟨t, c, i, _, _, hr⟩ := hg
    exact .inl (readSection_some hr).1
  | _ => cases hk

/-- A step makes a record tracked only by listing it. -/
theorem Move.tracked (hm : Move s x e p) (h : ((apply s x.task e).goto x.task p).tracked a) :
    s.tracked a ∨ ∃ c, e = .openSection c a := by
  rcases h with h | ⟨u, k, hu, hk⟩
  · exact (apply_listed h).imp_left .inl
  · rcases hm.holds hu with hu | ⟨_, hg⟩
    · exact .inl (tracked_of_holds hu hk)
    · exact .inl (hg.tracked hk hm)

theorem HeapInv.opens_fresh (hi : HeapInv s) (hm : Move s x e p) {c : Cred}
    (he : e = .openSection c a) : ¬ s.tracked a := by
  subst he
  exact (hi.opening x.task a (holds_of_pc hm.origin.1 rfl)).2.2

theorem Move.wakes_tracked (hm : Move s x e p) (hw : e.wakes = some b) : s.tracked b := by
  have ho := hm.origin
  cases e with
  | closeSection a process =>
    have hab : a = b := by cases process <;> simp_all [Effect.wakes]
    subst hab
    exact tracked_of_holds (holds_of_pc ho.1 rfl) rfl
  | wakeUpAll a =>
    obtain ⟨n, hpc, _⟩ := ho
    cases hw
    exact tracked_of_holds (holds_of_pc hpc rfl) rfl
  | _ => cases hw

/-- A record that is being opened was so before the step, or has just been handed out. -/
theorem HeapInv.opening_step (hi : HeapInv s) (hx : NoReuse s x) (hm : Move s x e p) {u : Task}
    (hu : ((apply s x.task e).goto x.task p).holds u .opening a) :
    (s.holds u .opening a ∧ ∀ c, e ≠ .openSection c a) ∨
      (u = x.task ∧ e = .kmalloc a ∧ s.inUse a = false ∧ a ≠ allevents ∧ ¬ s.tracked a) := by
  rcases hm.holds hu with hold | ⟨hux, he⟩
  · refine .inl ⟨hold, ?_⟩
    rintro c rfl
    obtain ⟨hpc, rfl⟩ := hm.origin
    have hux := hi.openingOnce u x.task a hold (holds_of_pc hpc rfl)
    rcases holds_goto.mp hu with ⟨_, hp⟩ | ⟨hne, _⟩
    · cases hp
    · exact hne hux
  · have he' : e = .kmalloc a := he
    subst he'
    obtain ⟨c, hpc, hfree, _⟩ := hm.origin
    have hreuse : ∀ v k, s.holds v k a → k.lingers = false := by
      cases hm with
      | kmalloc t c b hpc hfree => exact hx t a rfl
      | run t e p hrq hnext =>
        rw [Action.task] at hpc
        rw [hpc] at hnext
        cases hnext
    refine .inr ⟨hux, rfl, hfree, ?_, ?_⟩
    · rintro rfl
      rw [hi.sentinelUsed] at hfree
      cases hfree
    · rintro (hl | ⟨v, k, hv, hk⟩)
      · rw [hi.used a hl] at hfree
        cases hfree
      · rw [hreuse v k hv] at hk
        cases hk

theorem Move.inUse (hm : Move s x e p) (h : s.inUse a = true)
    (hf : ¬ s.holds x.task .freeing a) : (apply s x.task e).inUse a = true := by
  have ho := hm.origin
  rw [apply_inUse]
  cases e with
  | kmalloc b =>
    by_cases hab : a = b
    · simp [hab]
    · simpa [hab] using h
  | kfree b =>
    obtain ⟨n, hpc, _⟩ := ho
    have hab : a ≠ b := by
      rintro rfl
      exact hf (holds_of_pc hpc rfl)
    simpa [hab] using h
  | _ => exact h

theorem HeapInv.freeing_step (hi : HeapInv s) (hm : Move s x e p) {u : Task}
    (hu : ((apply s x.task e).goto x.task p).holds u .freeing a) :
    a ∉ (apply s x.task e).eventlist := by
  rw [apply_eventlist]
  rcases hm.holds hu with hold | ⟨_, process, rfl⟩
  · have hal := hi.freeing u a hold
    cases e with
    | openSection c b =>
      have hab : a ≠ b := fun h => hi.opens_fresh hm rfl (h ▸ tracked_of_holds hold rfl)
      simp [hal, hab]
    | closeSection b process => exact fun hmem => hal (List.mem_of_mem_erase hmem)
    | _ => exact hal
  · exact fun hmem => (hi.nodup.mem_erase_iff.mp hmem).1 rfl

end

theorem HeapInv.step {s s' : State} {x : Action} (hi : HeapInv s) (hx : NoReuse s x)
    (h : step s x = some s') : HeapInv s' := by
  obtain ⟨e, p, hm, rfl⟩ := step_eq_some.mp h
  refine ⟨?_, ?_, ?_, ?_, ?_, ?_, fun u a => hi.freeing_step hm⟩
  · rw [goto_eventlist, apply_eventlist]
    cases e with
    | openSection c b =>
      have hb : b ∉ s.eventlist := fun hb => hi.opens_fresh hm rfl (.inl hb)
      dsimp only
      rw [← List.concat_eq_append]
      exact hi.nodup.concat hb
    | closeSection b process => exact hi.nodup.erase b
    | _ => exact hi.nodup
  · intro a ha
    rcases apply_listed ha with hal | ⟨c, rfl⟩
    · exact hm.inUse (hi.used a hal) fun hf => hi.freeing _ a hf hal
    · exact hm.inUse (hi.opening x.task a (holds_of_pc hm.origin.1 rfl)).1 fun hf =>
        hi.opens_fresh hm rfl (tracked_of_holds hf rfl)
  · exact hm.inUse hi.sentinelUsed fun hf => hi.sentinel (tracked_of_holds hf rfl)
  · intro ht
    rcases hm.tracked ht with ht | ⟨c, rfl⟩
    · exact hi.sentinel ht
    · exact (hi.opening x.task _ (holds_of_pc hm.origin.1 rfl)).2.1 rfl
  · intro u a hu
    rcases hi.opening_step hx hm hu with ⟨hold, hne⟩ | ⟨_, rfl, _, has, hnt⟩
    · obtain ⟨huse, has, hnt⟩ := hi.opening u a hold
      refine ⟨hm.inUse huse fun hf => hnt (tracked_of_holds hf rfl), has, fun ht => ?_⟩
      rcases hm.tracked ht with ht | ⟨c, he⟩
      · exact hnt ht
      · exact hne c he
    · refine ⟨by simp [apply_inUse], has, fun ht => ?_⟩
      rcases hm.tracked ht with ht | ⟨c, he⟩
      · exact hnt ht
      · cases he
  · intro t u a ht hu
    rcases hi.opening_step hx hm ht with ⟨hold, _⟩ | ⟨htx, rfl, hfree, _⟩ <;>
      rcases hi.opening_step hx hm hu with ⟨hold', _⟩ | ⟨hux, he, hfree', _⟩
    · exact hi.openingOnce t u a hold hold'
    · rw [(hi.opening t a hold).1] at hfree'
      cases hfree'
    · rw [(hi.opening u a hold').1] at hfree
      cases hfree
    · exact htx.trans hux.symm

/-- The schedules of this module: no address is handed out too early, no close unlinks a
record that another close is about to unlink, and no open numbers its event while the last
id is 2^31-1. -/
def SafeStep (s : State) (x : Action) : Prop :=
  NoReuse s x ∧ UnlinksAlone s x ∧ ∀ a, Creates s x a → ¬ IdsExhausted s

structure SafeInv (s : State) : Prop where
  heap : HeapInv s
  own : LocalInv s
  ids : IdsInv s
  entries : EntriesOn s.tracked s
  linked : ∀ t a, s.holds t .waiting a → (s.sched t).linked = true → t ∈ (s.mem a).queue

theorem doeventInit_safeInv (mem : Addr → Event) (user : Task → UserMem) :
    SafeInv (doeventInit mem user) where
  heap := doeventInit_heapInv mem user
  own := doeventInit_localInv mem user
  ids := doeventInit_idsInv mem user
  entries := by
    constructor
    · rintro t a (h | ⟨u, k, h, _⟩)
      · exact absurd h List.not_mem_nil
      · cases h
    · rintro a (h | ⟨u, k, h, _⟩)
      · exact absurd h List.not_mem_nil
      · cases h
  linked := fun t a h => by cases h

theorem SafeInv.step {s s' : State} {x : Action} (hi : SafeInv s) (hx : SafeStep s x)
    (h : step s x = some s') : SafeInv s' := by
  have hfresh : ∀ t a, s.holds t .opening a → a ∉ s.eventlist ∧ a ≠ allevents := by
    intro t a ha
    obtain ⟨_, has, hnt⟩ := hi.heap.opening t a ha
    exact ⟨fun hl => hnt (.inl hl), has⟩
  have hheap := hi.heap.step hx.1 h
  have hown := hi.own.step h
  have hids := hi.ids.step_of_fresh hfresh hx.2.2 h
  obtain ⟨e, p, hm, rfl⟩ := step_eq_some.mp h
  refine ⟨hheap, hown, hids, ?_, ?_⟩
  · exact hi.entries.move hi.own hm (fun a => hm.tracked) (fun c a => hi.heap.opens_fresh hm)
      fun b => hm.wakes_tracked
  · intro u a hu hk
    exact hi.entries.linked_move hi.own hm (fun t a hw => tracked_of_holds hw rfl) hi.linked
      (fun c a => hi.heap.opens_fresh hm) (fun b => hm.wakes_tracked) hu hk

theorem safeInv_run {s s' : State} {xs : List Action} (h : Run step SafeStep s xs s')
    (hi : SafeInv s) : SafeInv s' :=
  h.invariant SafeInv hi fun _ _ _ hi hx hstep => hi.step hx hstep

end DoEvent
