import DoEvent.Machine
import DoEvent.Queue.WakeLoop

/-!
# The pointers implement the list

The calls are modelled elsewhere with a queue that is a list of tasks, on which
`prepare_to_wait` and `finish_wait` are single steps. Here each of them has one step at which
it takes effect: the store of the task state in `prepare_to_wait`, and in `finish_wait` the
load after which the links are only stored to. `wake_up_all` takes effect entry by entry,
when `try_to_wake_up` is called. Whatever the schedule, the links and the tasks are then what
these operations, in the order of their steps, make of a list.
-/

namespace DoEvent.Queue

open Shared Transition

/-- `autoremove_wake_function` for the entry of task `t` on the queue of `a`. -/
def wakeOne (c : DoEvent.State) (a : Addr) (t : Task) : DoEvent.State :=
  let r := autoremoveWakeFunction (c.sched t)
  { c.modify a (fun v => { v with queue := if r.2 then v.queue.erase t else v.queue }) with
    sched := Function.update c.sched t r.1 }

/-- An operation on the list: an effect of a step of the calls, or the wake-up of one entry. -/
inductive Op where
  | effect (t : Task) (e : DoEvent.Effect)
  | wake (t : Task)

def Op.apply (a : Addr) (c : DoEvent.State) : Op → DoEvent.State
  | .effect t e => DoEvent.apply c t e
  | .wake t => wakeOne c a t

/-- The operation that takes effect at a step. -/
def commits (a : Addr) (s : State) : Action → List Op
  | .run t =>
    match s.pc t with
    | .waitReset => [.effect t (.setCondition a 0)]
    | .prepareState => [.effect t (.prepareToWait a)]
    | .waitSchedule => [.effect t .schedule]
    | .deleteNext .finish _ => [.effect t (.finishWait a)]
    | .sigCondition _ => [.effect t (.setCondition a 1)]
    | .wakeFunc _ curr _ => [.wake curr]
    | _ => []
  | .posix t => [.effect t .posix]
  | .deliver t => [.effect t .deliver]
  | _ => []

/-! ### All entries of a queue -/

theorem wakeOne_mem (c : DoEvent.State) (a : Addr) (t : Task) :
    (wakeOne c a t).mem a = { c.mem a with
      queue := if (tryToWakeUp (c.sched t)).2 then (c.mem a).queue.erase t else (c.mem a).queue } := by
  simp [wakeOne, State.modify, autoremoveWakeFunction]

theorem wakeOne_foldl {c : DoEvent.State} {a : Addr} {kept rest : List Task}
    (hq : (c.mem a).queue = kept ++ rest) (hnodup : (kept ++ rest).Nodup) :
    rest.foldl (wakeOne · a ·) c =
      { c.modify a (fun v => { v with queue := kept ++ (wakeUpCommon rest c.sched).1 }) with
        sched := (wakeUpCommon rest c.sched).2 } := by
  induction rest generalizing c kept with
  | nil =>
    rw [List.append_nil] at hq
    simp [State.modify, wakeUpCommon, ← hq]
  | cons t rest ih =>
    have hsched : (wakeOne c a t).sched =
        Function.update c.sched t (autoremoveWakeFunction (c.sched t)).1 := rfl
    have htk : t ∉ kept := fun hm =>
      (List.nodup_append.mp hnodup).2.2 t hm t (List.mem_cons_self ..) rfl
    rw [List.foldl_cons]
    cases hw : (tryToWakeUp (c.sched t)).2 with
    | true =>
      have hqueue : ((wakeOne c a t).mem a).queue = kept ++ rest := by
        rw [wakeOne_mem, hw, hq, if_pos rfl, List.erase_append_right _ htk, List.erase_cons_head]
      rw [ih hqueue (hnodup.sublist (List.Sublist.append_left (List.sublist_cons_self ..) _))]
      simp [wakeOne, State.modify, wakeUpCommon, autoremoveWakeFunction, hw]
    | false =>
      have hqueue : ((wakeOne c a t).mem a).queue = kept ++ [t] ++ rest := by
        rw [wakeOne_mem, hw, hq]
        simp
      rw [ih hqueue (by simpa using hnodup)]
      simp [wakeOne, State.modify, wakeUpCommon, autoremoveWakeFunction, hw]

/-- `wake_up_all` undisturbed is the single step of the calls. -/
theorem wakeUpAll_eq {c : DoEvent.State} {a : Addr} (h : (c.mem a).queue.Nodup) :
    wakeUpAll c a = (c.mem a).queue.foldl (wakeOne · a ·) c := by
  have hall := @wakeOne_foldl c a [] _ rfl h
  rw [hall]
  rfl

/-! ### The relation -/

/-- In `finish_wait` between the store of the task state and the step that takes effect. -/
def Pc.finishing : Pc → Bool
  | .finishNext | .finishPrev | .finishLock | .deletePrev .finish | .deleteNext .finish _ => true
  | _ => false

/-- The links are ahead of the list while an entry is being added, and behind it while a
woken one is being taken off. -/
def Ahead (t : Task) (l queue : List Task) (linked : Bool) : Pc → Prop
  | .stores _ .listAdd => l = t :: queue ∧ linked = false
  | .prepareState => l = (if linked then queue else t :: queue)
  | .deletePrev (.autoremove _ curr _) | .deleteNext (.autoremove _ curr _) _ => l.erase curr = queue
  | _ => l = queue

/-- The tasks agree but for `linked`, which the pointers do not have, and for the state of a
task in `finish_wait`. -/
structure Alike (p : Pc) (q r : Sched) : Prop where
  onRq : r.onRq = q.onRq
  sigPending : r.sigPending = q.sigPending
  state : p.finishing = false → r.state = q.state
  finishing : p.finishing = true → q.state = .running

structure Rel (a : Addr) (s : State) (c : DoEvent.State) (l : List Task) : Prop where
  inv : Inv s l
  condition : (c.mem a).condition = s.condition
  free : s.lock = none → l = (c.mem a).queue
  holder : ∀ t, s.lock = some t → Ahead t l (c.mem a).queue (c.sched t).linked (s.pc t)
  linked : ∀ t, (c.sched t).linked = true ↔ t ∈ (c.mem a).queue
  alike : ∀ t, Alike (s.pc t) (s.sched t) (c.sched t)

section
variable {a : Addr} {s s' : State} {c c' : DoEvent.State} {l l' : List Task} {t u : Task} {p : Pc}

theorem Rel.move (h : Rel a s c l) (hi : Inv s' l') (hpc : s'.pc = Function.update s.pc t p)
    (hcond : (c'.mem a).condition = s'.condition) (hfree : s'.lock = none → l' = (c'.mem a).queue)
    (hheld : s'.lock = some t → Ahead t l' (c'.mem a).queue (c'.sched t).linked p)
    (hother : ∀ u, u ≠ t → s'.lock = some u →
      s.lock = some u ∧ l' = l ∧ (c'.mem a).queue = (c.mem a).queue)
    (hlinked : ∀ u, (c'.sched u).linked = true ↔ u ∈ (c'.mem a).queue)
    (halike : ∀ u, u ≠ t → Alike (s.pc u) (s'.sched u) (c'.sched u))
    (hself : Alike p (s'.sched t) (c'.sched t)) : Rel a s' c' l' := by
  have ht : s'.pc t = p := by rw [hpc, Function.update_self]
  have hne : ∀ u, u ≠ t → s'.pc u = s.pc u := fun u hu => by rw [hpc, Function.update_of_ne hu]
  refine ⟨hi, hcond, hfree, ?_, hlinked, ?_⟩ <;> intro u <;> by_cases hu : u = t
  · subst hu
    rw [ht]
    exact hheld
  · intro hl
    obtain ⟨hl, rfl, hq⟩ := hother u hu hl
    have hlink : (c'.sched u).linked = (c.sched u).linked := by
      rw [Bool.eq_iff_iff, hlinked, h.linked, hq]
    rw [hne u hu, hq, hlink]
    exact h.holder u hl
  · subst hu
    rw [ht]
    exact hself
  · rw [hne u hu]
    exact halike u hu

theorem Alike.of_same {q r : Sched} {p p' : Pc} (h : Alike p q r) (hf : p'.finishing = p.finishing) :
    Alike p' q r :=
  ⟨h.onRq, h.sigPending, fun hp => h.state (hf ▸ hp), fun hp => h.finishing (hf ▸ hp)⟩

/-! ### Steps at which nothing takes effect -/

theorem Rel.walk (h : Rel a s c l) (hi : Inv s' l) (hu : (s.pc t).locked = false)
    (hpc : s'.pc = Function.update s.pc t p) (hlock : s'.lock = s.lock)
    (hcond : s'.condition = s.condition) (hsched : ∀ u, u ≠ t → s'.sched u = s.sched u)
    (hself : Alike p (s'.sched t) (c.sched t)) : Rel a s' c l := by
  refine h.move hi hpc (h.condition.trans hcond.symm) (fun hl => h.free (hlock ▸ hl)) ?_
    (fun u _ hl => ⟨hlock ▸ hl, rfl, rfl⟩) h.linked (fun u hut => hsched u hut ▸ h.alike u) hself
  intro hl
  have htl := (h.inv.lock t).mp (hlock ▸ hl)
  rw [hu] at htl
  cases htl

theorem Rel.acquire (h : Rel a s c l) (hfree : s.lock = none)
    (hi : Inv ({ s with lock := some t }.goto t p) l)
    (hp : Ahead t (c.mem a).queue (c.mem a).queue (c.sched t).linked p)
    (hf : p.finishing = (s.pc t).finishing) : Rel a ({ s with lock := some t }.goto t p) c l := by
  refine h.move hi rfl h.condition (fun hl => by cases hl) (fun _ => h.free hfree ▸ hp) ?_ h.linked
    (fun u _ => h.alike u) ((h.alike t).of_same hf)
  intro u hu hl
  exact absurd (Option.some.inj hl).symm hu

/-- A step of the holder, which keeps the lock. -/
theorem Rel.hold (h : Rel a s c l) (ht : s.lock = some t) (hi : Inv s' l')
    (hpc : s'.pc = Function.update s.pc t p) (hlock : s'.lock = s.lock)
    (hcond : s'.condition = s.condition) (hsched : s'.sched = s.sched)
    (hp : Ahead t l' (c.mem a).queue (c.sched t).linked p) (hf : p.finishing = (s.pc t).finishing) :
    Rel a s' c l' := by
  rw [ht] at hlock
  refine h.move hi hpc (h.condition.trans hcond.symm) (fun hl => ?_) (fun _ => hp) ?_ h.linked
    (fun u _ => hsched ▸ h.alike u) (hsched ▸ (h.alike t).of_same hf)
  · rw [hlock] at hl
    cases hl
  · intro u hu hl
    rw [hlock] at hl
    exact absurd (Option.some.inj hl).symm hu

theorem Rel.release (h : Rel a s c l) (hi : Inv ({ s with lock := none }.goto t p) l)
    (hq : l = (c.mem a).queue) (hf : p.finishing = (s.pc t).finishing) :
    Rel a ({ s with lock := none }.goto t p) c l :=
  h.move hi rfl h.condition (fun _ => hq) (fun hl => by cases hl) (fun u _ hl => by cases hl) h.linked
    (fun u _ => h.alike u) ((h.alike t).of_same hf)

/-! ### Steps that take effect -/

theorem Rel.setCondition (h : Rel a s c l) (v : Int32) (hu : (s.pc t).locked = false)
    (hi : Inv ({ s with condition := v }.goto t p) l) (hf : p.finishing = (s.pc t).finishing) :
    Rel a ({ s with condition := v }.goto t p) (DoEvent.apply c t (.setCondition a v)) l := by
  have hmem : ((DoEvent.apply c t (.setCondition a v)).mem a) = { c.mem a with condition := v } :=
    Function.update_self ..
  refine h.move hi rfl (by rw [hmem]; rfl) ?_ ?_ ?_ ?_ (fun u _ => h.alike u) ((h.alike t).of_same hf)
  · rw [hmem]
    exact h.free
  · intro hl
    rw [(h.inv.lock t).mp hl] at hu
    cases hu
  · intro u _ hl
    exact ⟨hl, rfl, by rw [hmem]⟩
  · rw [hmem]
    exact h.linked

theorem schedule_linked (q : Sched) : (schedule q).linked = q.linked := by
  unfold schedule
  split
  · rfl
  · split_ifs <;> rfl

theorem Alike.schedule {q r : Sched} {p' : Pc} (h : Alike p q r) (hp : p.finishing = false)
    (hp' : p'.finishing = false) : Alike p' (schedule q) (schedule r) := by
  have hstate := h.state hp
  unfold DoEvent.schedule
  rw [hstate, h.sigPending]
  cases hq : q.state with
  | running => exact ⟨h.onRq, h.sigPending, fun _ => hstate, fun hf => by rw [hp'] at hf; cases hf⟩
  | interruptible =>
    dsimp only
    split_ifs
    · exact ⟨h.onRq, rfl, fun _ => rfl, fun _ => rfl⟩
    · exact ⟨rfl, rfl, fun _ => rfl, fun hf => by rw [hp'] at hf; cases hf⟩

/-- A step that changes tasks only, in the list as in the pointers. -/
theorem Rel.resched (h : Rel a s c l) {sched sched' : Task → Sched}
    (hi : Inv { s with sched := sched } l) (hlinked : ∀ u, (sched' u).linked = (c.sched u).linked)
    (halike : ∀ u, Alike (s.pc u) (sched u) (sched' u)) :
    Rel a { s with sched := sched } { c with sched := sched' } l :=
  ⟨hi, h.condition, h.free, fun t ht => by
    show Ahead t l (c.mem a).queue (sched' t).linked (s.pc t)
    rw [hlinked t]
    exact h.holder t ht, fun u => by
    show (sched' u).linked = true ↔ _
    rw [hlinked u]
    exact h.linked u, halike⟩

theorem Rel.waitSchedule (h : Rel a s c l) (hpc : s.pc t = .waitSchedule)
    (hi : Inv ((s.setSched t (schedule (s.sched t))).goto t .waitAsleep) l) :
    Rel a ((s.setSched t (schedule (s.sched t))).goto t .waitAsleep)
      (DoEvent.apply c t .schedule) l := by
  refine h.move hi rfl h.condition h.free ?_ (fun u _ hl => ⟨hl, rfl, rfl⟩) ?_ ?_ ?_
  · intro hl
    have htl := (h.inv.lock t).mp hl
    rw [hpc] at htl
    cases htl
  · intro u
    show (Function.update c.sched t (schedule (c.sched t)) u).linked = true ↔ _
    by_cases hu : u = t
    · subst hu
      rw [Function.update_self, schedule_linked]
      exact h.linked u
    · rw [Function.update_of_ne hu]
      exact h.linked u
  · intro u hu
    show Alike _ (Function.update s.sched t _ u) (Function.update c.sched t _ u)
    rw [Function.update_of_ne hu, Function.update_of_ne hu]
    exact h.alike u
  · show Alike _ (Function.update s.sched t _ t) (Function.update c.sched t _ t)
    rw [Function.update_self, Function.update_self]
    exact (h.alike t).schedule (by rw [hpc]; rfl) rfl

theorem Rel.finishState (h : Rel a s c l) (hpc : s.pc t = .finishState)
    (hi : Inv ((s.setSched t { s.sched t with state := .running }).goto t .finishNext) l) :
    Rel a ((s.setSched t { s.sched t with state := .running }).goto t .finishNext) c l := by
  refine h.walk hi (by rw [hpc]; rfl) rfl rfl rfl (fun u hu => Function.update_of_ne hu ..) ?_
  show Alike _ (Function.update s.sched t _ t) _
  rw [Function.update_self]
  exact ⟨(h.alike t).onRq, (h.alike t).sigPending, fun hf => (by cases hf), fun _ => rfl⟩

theorem Rel.run_unlocked (h : Rel a s c l) (hu : (s.pc t).locked = false)
    (hstep : step s (.run t) = some s') (hi : Inv s' l) :
    Rel a s' ((commits a s (.run t)).foldl (Op.apply a) c) l := by
  obtain ⟨hrq, e, p, m, hnext, happly, rfl⟩ := run_eq_some hstep
  have hwalk : ∀ {q p : Pc} {k : Links ListHead}, s.pc t = q → Inv ({ s with links := k }.goto t p) l →
      p.finishing = q.finishing → Rel a ({ s with links := k }.goto t p) c l := fun hpc hi hf =>
    h.walk hi hu rfl rfl rfl (fun _ _ => rfl) ((h.alike t).of_same (hpc ▸ hf))
  have hlock : ∀ {q p : Pc}, s.pc t = q → apply s t .lock = some m → Inv (m.goto t p) l →
      Ahead t (c.mem a).queue (c.mem a).queue (c.sched t).linked p → p.finishing = q.finishing →
      Rel a (m.goto t p) c l := by
    intro q p hpc happly hi hp hf
    obtain ⟨hfree, rfl⟩ := apply_lock happly
    exact h.acquire hfree hi hp (hpc ▸ hf)
  simp only [commits]
  generalize hpc : s.pc t = q at hu hnext ⊢
  cases q with
  | user => cases hnext
  | ret r | waitAsleep =>
    cases hnext
    cases happly
    exact hwalk hpc hi rfl
  | waitTest | waitRetest | waitSignal | finishNext | sigActive =>
    cases hnext
    cases happly
    refine hwalk hpc hi ?_
    split_ifs <;> rfl
  | sigFirst | sigNext pos process =>
    cases hnext
    cases happly
    refine hwalk hpc hi ?_
    unfold sigLoop
    split_ifs <;> rfl
  | stores todo k =>
    cases k with
    | listAdd | listDelInit d => cases hu
    | defineWait =>
      cases todo <;> cases hnext <;> cases happly <;> exact hwalk hpc hi rfl
  | waitReset | sigCondition process =>
    cases hnext
    cases happly
    exact h.setCondition _ (by rw [hpc]; rfl) hi (by rw [hpc]; rfl)
  | waitSchedule =>
    cases hnext
    cases happly
    exact h.waitSchedule hpc hi
  | finishState =>
    cases hnext
    cases happly
    exact h.finishState hpc hi
  | finishPrev => exact absurd hpc (h.inv.careful t)
  | prepareLock | finishLock | wakeLock process =>
    cases hnext
    exact hlock hpc happly hi rfl rfl
  | _ => cases hu

/-- An operation of the holder on the list, which concerns the task `d`. -/
theorem Rel.commit (h : Rel a s c l) (ht : s.lock = some t) (hi : Inv s' l')
    (hpc : s'.pc = Function.update s.pc t p) (hlock : s'.lock = s.lock)
    (hcond : s'.condition = s.condition) {queue : List Task} {d : Task} {r : Sched}
    (hmem : c'.mem a = { c.mem a with queue := queue }) (hsched : c'.sched = Function.update c.sched d r)
    (hothers : ∀ u, u ≠ d → s'.sched u = s.sched u)
    (hahead : Ahead t l' queue (c'.sched t).linked p)
    (hqueue : ∀ u, u ≠ d → (u ∈ queue ↔ u ∈ (c.mem a).queue)) (hd : r.linked = true ↔ d ∈ queue)
    (hself : Alike (s'.pc d) (s'.sched d) r) (hf : t ≠ d → p.finishing = (s.pc t).finishing) :
    Rel a s' c' l' := by
  have hq : (c'.mem a).queue = queue := by rw [hmem]
  have hne : ∀ u, u ≠ d → c'.sched u = c.sched u := fun u hu => by rw [hsched, Function.update_of_ne hu]
  have hdd : c'.sched d = r := by rw [hsched, Function.update_self]
  have hpt : s'.pc t = p := by rw [hpc, Function.update_self]
  rw [ht] at hlock
  refine h.move hi hpc ?_ (fun hl => ?_) (fun _ => hq.symm ▸ hahead) ?_ ?_ ?_ ?_
  · rw [hmem, hcond]
    exact h.condition
  · rw [hlock] at hl
    cases hl
  · intro u hu hl
    rw [hlock] at hl
    exact absurd (Option.some.inj hl).symm hu
  · intro u
    rw [hq]
    by_cases hu : u = d
    · rw [hu, hdd]
      exact hd
    · rw [hne u hu, hqueue u hu]
      exact h.linked u
  · intro u hut
    by_cases hu : u = d
    · subst hu
      rw [hdd]
      rwa [hpc, Function.update_of_ne hut] at hself
    · rw [hothers u hu, hne u hu]
      exact h.alike u
  · by_cases hu : t = d
    · subst hu
      rwa [hdd, ← hpt]
    · rw [hothers t hu, hne t hu]
      exact (h.alike t).of_same (hf hu)

theorem prepareToWait_mem (c : DoEvent.State) (t : Task) (a : Addr) :
    (DoEvent.prepareToWait c t a).mem a = { c.mem a with
      queue := if (c.sched t).linked then (c.mem a).queue else t :: (c.mem a).queue } := by
  cases hl : (c.sched t).linked <;> simp [DoEvent.prepareToWait, hl, DoEvent.State.setSched, State.modify]

theorem prepareToWait_sched (c : DoEvent.State) (t : Task) (a : Addr) :
    (DoEvent.prepareToWait c t a).sched =
      Function.update c.sched t { c.sched t with linked := true, state := .interruptible } := by
  cases hl : (c.sched t).linked <;> simp [DoEvent.prepareToWait, hl, DoEvent.State.setSched, State.modify]

theorem finishWait_mem (c : DoEvent.State) (t : Task) (a : Addr) :
    (DoEvent.finishWait c t a).mem a = { c.mem a with
      queue := if (c.sched t).linked then (c.mem a).queue.erase t else (c.mem a).queue } := by
  cases hl : (c.sched t).linked <;> simp [DoEvent.finishWait, hl, DoEvent.State.setSched, State.modify]

theorem finishWait_sched (c : DoEvent.State) (t : Task) (a : Addr) :
    (DoEvent.finishWait c t a).sched =
      Function.update c.sched t { c.sched t with linked := false, state := .running } := by
  cases hl : (c.sched t).linked <;> simp [DoEvent.finishWait, hl, DoEvent.State.setSched, State.modify]

theorem Rel.prepareState (h : Rel a s c l) (ht : s.lock = some t) (hpc : s.pc t = .prepareState)
    (hi : Inv ((s.setSched t { s.sched t with state := .interruptible }).goto t .prepareUnlock) l) :
    Rel a ((s.setSched t { s.sched t with state := .interruptible }).goto t .prepareUnlock)
      (DoEvent.apply c t (.prepareToWait a)) l := by
  have hahead : l = if (c.sched t).linked then (c.mem a).queue else t :: (c.mem a).queue := by
    have hh := h.holder t ht
    rw [hpc] at hh
    exact hh
  have hm : t ∈ l := h.inv.linked t (by rw [hpc]; rfl)
  refine h.commit ht hi rfl rfl rfl (prepareToWait_mem c t a) (prepareToWait_sched c t a)
    (fun u hu => Function.update_of_ne hu ..) hahead ?_ (by simpa [← hahead] using hm) ?_
    (fun hne => absurd rfl hne)
  · intro u hu
    split_ifs <;> simp [hu]
  · rw [goto_self]
    show Alike _ (Function.update s.sched t _ t) _
    rw [Function.update_self]
    exact ⟨(h.alike t).onRq, (h.alike t).sigPending, fun _ => rfl, fun hf => by cases hf⟩

theorem Rel.deleteFinish (h : Rel a s c l) (ht : s.lock = some t) {prev : ListHead}
    (hpc : s.pc t = .deleteNext .finish prev) {todo : List (Links.Store ListHead)}
    (hi : Inv (s.goto t (.stores todo (.listDelInit .finish))) (l.erase t)) :
    Rel a (s.goto t (.stores todo (.listDelInit .finish))) (DoEvent.apply c t (.finishWait a))
      (l.erase t) := by
  have hq : l = (c.mem a).queue := by
    have hh := h.holder t ht
    rw [hpc] at hh
    exact hh
  have hl : (c.sched t).linked = true := by
    rw [h.linked t, ← hq]
    exact h.inv.linked t (by rw [hpc]; rfl)
  have hmem := finishWait_mem c t a
  rw [hl, if_pos rfl, ← hq] at hmem
  have hrun := (h.alike t).finishing (by rw [hpc]; rfl)
  refine h.commit ht hi rfl rfl rfl hmem (finishWait_sched c t a) (fun _ _ => rfl) rfl ?_ ?_ ?_
    (fun hne => absurd rfl hne)
  · intro u hu
    rw [← hq]
    exact List.mem_erase_of_ne hu
  · simp [h.inv.nodup.not_mem_erase]
  · rw [goto_self]
    exact ⟨(h.alike t).onRq, (h.alike t).sigPending, fun _ => hrun.symm, fun _ => hrun⟩

/-- Both levels agree on whether a wake-up succeeds. -/
theorem Alike.tryToWakeUp {q r : Sched} (h : Alike p q r) (hf : p.finishing = true → q.onRq = true) :
    (DoEvent.tryToWakeUp r).2 = (DoEvent.tryToWakeUp q).2 ∧
      Alike p (DoEvent.tryToWakeUp q).1 (DoEvent.tryToWakeUp r).1 := by
  have honRq := h.onRq
  cases hp : p.finishing with
  | false =>
    have hstate := h.state hp
    cases hs : q.state with
    | running =>
      rw [hs] at hstate
      simp only [DoEvent.tryToWakeUp, hs, hstate]
      exact ⟨trivial, h⟩
    | interruptible =>
      rw [hs] at hstate
      cases hq : q.onRq with
      | true =>
        rw [hq] at honRq
        simp only [DoEvent.tryToWakeUp, hs, hstate, hq, honRq]
        exact ⟨trivial, rfl, h.sigPending, fun _ => rfl, fun _ => rfl⟩
      | false =>
        rw [hq] at honRq
        simp only [DoEvent.tryToWakeUp, hs, hstate, hq, honRq]
        exact ⟨trivial, rfl, h.sigPending, fun _ => rfl, fun _ => rfl⟩
  | true =>
    have hs := h.finishing hp
    have hq := hf hp
    rw [hq] at honRq
    cases hr : r.state with
    | running =>
      simp only [DoEvent.tryToWakeUp, hs, hr]
      exact ⟨trivial, h⟩
    | interruptible =>
      simp only [DoEvent.tryToWakeUp, hs, hr, honRq]
      exact ⟨trivial, hq.symm, h.sigPending, fun _ => hs.symm, fun _ => hs⟩

theorem Inv.onRq_of_finishing (hi : Inv s l) (h : (s.pc t).finishing = true) :
    (s.sched t).onRq = true := by
  by_contra hr
  have ha := (hi.asleep t (by simpa using hr)).1
  rw [ha] at h
  cases h

theorem tryToWakeUp_linked (q : Sched) : (tryToWakeUp q).1.linked = q.linked := by
  unfold tryToWakeUp
  split <;> rfl

theorem autoremoveWakeFunction_fst (q : Sched) : (autoremoveWakeFunction q).1 =
    if (tryToWakeUp q).2 then { (tryToWakeUp q).1 with linked := false } else (tryToWakeUp q).1 := rfl

theorem Rel.wakeFunc (h : Rel a s c l) (ht : s.lock = some t) {process : ℕ} {curr : Task}
    {next : ListHead} (hpc : s.pc t = .wakeFunc process curr next)
    (hi : Inv ((s.setSched curr (tryToWakeUp (s.sched curr)).1).goto t p) l)
    (hp : p = if (tryToWakeUp (s.sched curr)).2 then .deletePrev (.autoremove process curr next)
      else .wakeNext process next) :
    Rel a ((s.setSched curr (tryToWakeUp (s.sched curr)).1).goto t p) (wakeOne c a curr) l := by
  have hq : l = (c.mem a).queue := by
    have hh := h.holder t ht
    rw [hpc] at hh
    exact hh
  have hm : t ∉ l := h.inv.absent (by rw [hpc]; rfl)
  have hcurr : curr ∈ l := by
    have hok := h.inv.holder t ht
    rw [hpc] at hok
    obtain ⟨ys, ⟨xs, hl, _⟩, _⟩ := hok
    simp [hl]
  have hct : curr ≠ t := fun he => hm (he ▸ hcurr)
  obtain ⟨hsame, halike⟩ := (h.alike curr).tryToWakeUp h.inv.onRq_of_finishing
  have hlinked : (tryToWakeUp (c.sched curr)).1.linked = true := by
    rw [tryToWakeUp_linked, h.linked curr, ← hq]
    exact hcurr
  have hmem := wakeOne_mem c a curr
  rw [hsame, ← hq] at hmem
  have hfinishing : p.finishing = (s.pc t).finishing := by
    rw [hp, hpc]
    split_ifs <;> rfl
  refine h.commit (d := curr) ht hi rfl rfl rfl hmem rfl (fun u hu => Function.update_of_ne hu ..) ?_ ?_
    ?_ ?_ (fun _ => hfinishing)
  · rw [hp]
    cases (tryToWakeUp (s.sched curr)).2 <;> rfl
  · intro u hu
    rw [← hq]
    split_ifs
    · exact List.mem_erase_of_ne hu
    · rfl
  · rw [autoremoveWakeFunction_fst, hsame]
    cases (tryToWakeUp (s.sched curr)).2
    · simp [hlinked, hcurr]
    · simp [h.inv.nodup.not_mem_erase]
  · rw [goto_of_ne _ _ hct]
    show Alike (s.pc curr) (Function.update s.sched curr _ curr) _
    rw [Function.update_self, autoremoveWakeFunction_fst]
    split_ifs
    · exact ⟨halike.onRq, halike.sigPending, halike.state, halike.finishing⟩
    · exact halike

theorem Rel.run_locked (h : Rel a s c l) (hu : (s.pc t).locked = true)
    (hstep : step s (.run t) = some s') (hi : Inv s' ((s.pc t).moved t l)) :
    Rel a s' ((commits a s (.run t)).foldl (Op.apply a) c) ((s.pc t).moved t l) := by
  obtain ⟨hrq, e, p, m, hnext, happly, rfl⟩ := run_eq_some hstep
  have ht : s.lock = some t := (h.inv.lock t).mpr hu
  have hahead := h.holder t ht
  have habsent := h.inv.absent (t := t)
  have hmem := hi.linked t
  have hold : ∀ {q p : Pc} {m : State} {l' : List Task}, s.pc t = q → Inv (m.goto t p) l' → m.pc = s.pc →
      m.lock = s.lock → m.condition = s.condition → m.sched = s.sched →
      Ahead t l' (c.mem a).queue (c.sched t).linked p → p.finishing = q.finishing →
      Rel a (m.goto t p) c l' := fun hpc hi hmpc hl hc hs hp hf =>
    h.hold ht hi (by rw [← hmpc]; rfl) hl hc hs hp (hpc ▸ hf)
  rw [goto_self] at hmem
  simp only [commits]
  generalize hpc : s.pc t = q at hu hnext hahead habsent hi hmem ⊢
  cases q with
  | prepareEmpty =>
    cases hnext
    cases happly
    have hq : l = (c.mem a).queue := hahead
    refine hold hpc hi rfl rfl rfl rfl ?_ (by split_ifs <;> rfl)
    split_ifs with hself
    · exact hq
    · have hl : (c.sched t).linked = true := by
        rw [h.linked t, ← hq]
        exact hmem (by rw [if_neg hself]; rfl)
      show l = if (c.sched t).linked = true then _ else _
      rw [hl]
      exact hq
  | prepareHead | wakeFirst process =>
    cases hnext
    cases happly
    exact hold hpc hi rfl rfl rfl rfl hahead rfl
  | prepareWarnPrev next =>
    cases hnext
    split_ifs at happly <;> cases happly <;> exact hold hpc hi rfl rfl rfl rfl hahead rfl
  | prepareWarnNext next =>
    cases hnext
    have hq : l = (c.mem a).queue := hahead
    have hl : (c.sched t).linked = false := by
      have hn := mt (h.linked t).mp (hq ▸ habsent rfl)
      simpa using hn
    split_ifs at happly <;> cases happly <;>
      exact hold hpc hi rfl rfl rfl rfl ⟨congrArg (t :: ·) hq, hl⟩ rfl
  | prepareState =>
    cases hnext
    cases happly
    exact h.prepareState ht hpc hi
  | prepareUnlock | finishUnlock | wakeUnlock process =>
    cases hnext
    cases happly
    exact h.release hi hahead (by rw [hpc]; rfl)
  | stores todo k =>
    cases todo with
    | cons w todo =>
      cases hnext
      cases happly
      rcases k with _ | _ | (_ | _) <;> exact hold hpc hi rfl rfl rfl rfl hahead rfl
    | nil =>
      cases hnext
      cases happly
      rcases k with _ | _ | (_ | _)
      · cases hu
      · refine hold hpc hi rfl rfl rfl rfl ?_ rfl
        show l = if (c.sched t).linked = true then _ else _
        rw [hahead.2]
        exact hahead.1
      · exact hold hpc hi rfl rfl rfl rfl hahead rfl
      · exact hold hpc hi rfl rfl rfl rfl hahead rfl
  | deletePrev d =>
    cases hnext
    cases happly
    cases d <;> exact hold hpc hi rfl rfl rfl rfl hahead rfl
  | deleteNext d prev =>
    cases hnext
    cases happly
    cases d with
    | finish => exact h.deleteFinish ht hpc hi
    | autoremove process curr next => exact hold hpc hi rfl rfl rfl rfl hahead rfl
  | wakeNext process curr =>
    cases curr <;> cases hnext <;> cases happly <;> exact hold hpc hi rfl rfl rfl rfl hahead rfl
  | wakeFunc process curr next =>
    cases hnext
    cases happly
    exact h.wakeFunc ht hpc hi rfl
  | _ => cases hu

theorem signalWakeUp_linked (q : Sched) : (signalWakeUp q).linked = q.linked := tryToWakeUp_linked _

theorem Rel.step {x : Action} (h : Rel a s c l) (hstep : Queue.step s x = some s') :
    Rel a s' ((commits a s x).foldl (Op.apply a) c) (queueStep s l x) := by
  have hi := h.inv.step hstep
  cases x with
  | wait t | sig t =>
    simp only [Queue.step] at hstep
    split at hstep
    · next hpc =>
      cases hstep
      exact h.walk hi (by rw [hpc]; rfl) rfl rfl rfl (fun _ _ => rfl)
        ((h.alike t).of_same (by rw [hpc]; rfl))
    · cases hstep
  | run t =>
    cases hl : (s.pc t).locked with
    | false =>
      have hm : queueStep s l (.run t) = l := Pc.moved_of_unlocked hl
      rw [hm] at hi ⊢
      exact h.run_unlocked hl hstep hi
    | true => exact h.run_locked hl hstep hi
  | posix t =>
    cases hstep
    refine h.resched hi (fun u => ?_) (fun u => ?_) <;> by_cases hu : u = t
    · subst hu
      rw [Function.update_self, signalWakeUp_linked]
    · rw [Function.update_of_ne hu]
    · subst hu
      rw [Function.update_self, Function.update_self]
      have hsig : Alike (s.pc u) { s.sched u with sigPending := true }
          { c.sched u with sigPending := true } :=
        ⟨(h.alike u).onRq, rfl, (h.alike u).state, (h.alike u).finishing⟩
      exact (hsig.tryToWakeUp h.inv.onRq_of_finishing).2
    · rw [Function.update_of_ne hu, Function.update_of_ne hu]
      exact h.alike u
  | deliver t =>
    simp only [Queue.step] at hstep
    split at hstep
    · cases hstep
      refine h.resched hi (fun u => ?_) (fun u => ?_) <;> by_cases hu : u = t
      · subst hu
        rw [Function.update_self]
      · rw [Function.update_of_ne hu]
      · subst hu
        rw [Function.update_self, Function.update_self]
        exact ⟨(h.alike u).onRq, rfl, (h.alike u).state, (h.alike u).finishing⟩
      · rw [Function.update_of_ne hu, Function.update_of_ne hu]
        exact h.alike u
    · cases hstep
  | reuse t next prev =>
    simp only [Queue.step] at hstep
    split at hstep <;> cases hstep
    exact ⟨hi, h.condition, h.free, h.holder, h.linked, h.alike⟩

theorem Rel.init (links : Links ListHead) (hq : (c.mem a).queue = []) (hc : (c.mem a).condition = 0)
    (hs : ∀ t, c.sched t = Sched.fresh) : Rel a (Queue.init links) c [] where
  inv := Inv.init links
  condition := hc
  free _ := hq.symm
  holder t ht := by cases ht
  linked t := by simp [hs t, hq, Sched.fresh]
  alike t := by
    rw [hs t]
    exact ⟨rfl, rfl, fun _ => rfl, fun hf => by cases hf⟩

theorem Rel.run {xs : List Action} {ok : State → Action → Prop} (h : Run Queue.step ok s xs s')
    (hr : Rel a s c l) :
    ∃ l', Rel a s' ((observe Queue.step (commits a) s xs).foldl (Op.apply a) c) l' := by
  induction h generalizing c l with
  | nil s => exact ⟨l, hr⟩
  | cons _ hstep _ ih =>
    rw [observe, hstep, Option.elim_some, List.foldl_append]
    exact ih (hr.step hstep)

end

/-- Any schedule of the waits and signals of one event, from an empty queue: the links, the
condition and the tasks are what the operations that took effect make of a list. Only the
state of a task that is leaving its wait may still differ. -/
theorem pointers_implement_list (links : Links ListHead) (a : Addr) (c : DoEvent.State)
    (xs : List Action) (s : State) (hq : (c.mem a).queue = []) (hc : (c.mem a).condition = 0)
    (hs : ∀ t, c.sched t = Sched.fresh) (h : Steps (init links) xs s) :
    ∃ c', c' = (observe step (commits a) (init links) xs).foldl (Op.apply a) c ∧
      (c'.mem a).condition = s.condition ∧
      (s.lock = none → s.links.Ring .taskList ((c'.mem a).queue.map .entry)) ∧
      ∀ t, (c'.sched t).onRq = (s.sched t).onRq ∧ (c'.sched t).sigPending = (s.sched t).sigPending ∧
        ((s.pc t).finishing = false → (c'.sched t).state = (s.sched t).state) ∧
        ((c'.sched t).linked = true ↔ t ∈ (c'.mem a).queue) := by
  obtain ⟨l, hr⟩ := (Rel.init links hq hc hs).run h
  refine ⟨_, rfl, hr.condition, fun hl => ?_, fun t => ?_⟩
  · rw [← hr.free hl, ← Inv.settled_free hl]
    exact hr.inv.ring
  · exact ⟨(hr.alike t).onRq, (hr.alike t).sigPending, (hr.alike t).state, hr.linked t⟩

/-- The second task to wait is the first on the queue. -/
theorem pointers_implement_list_asleep :
    ∃ s c, Steps (init blank) (sleeps 1 ++ sleeps 2) s ∧
      c = (observe step (commits 1) (init blank) (sleeps 1 ++ sleeps 2)).foldl (Op.apply 1) boot ∧
      s.links.Ring .taskList ((c.mem 1).queue.map .entry) ∧ (c.mem 1).queue = [2, 1] := by
  obtain ⟨s, hr, ht⟩ : ∃ s, Steps (init blank) (sleeps 1 ++ sleeps 2) s ∧ (s.lock == none) = true :=
    Run.of_test (fun _ _ => true) _ (by decide +kernel) fun _ _ _ => trivial
  obtain ⟨c, hc, _, hring, _⟩ :=
    pointers_implement_list blank 1 boot _ s rfl rfl (fun _ => rfl) hr
  refine ⟨s, c, hr, hc, hring (beq_iff_eq.mp ht), ?_⟩
  rw [hc]
  decide +kernel

/-! ### `wake_up_all` alone -/

/-- Only the waker runs, up to the release of the lock. -/
def Alone (w : Task) (s : State) (x : Action) : Prop := x = .run w ∧ (s.pc w).wakeDone = false

section
variable {a : Addr} {s s' : State} {l l' : List Task} {w : Task} {notes : List (Task × Bool)}

theorem Visiting.commits (h : Visiting l notes l' (s.pc w)) :
    commits a s (.run w) = (wakes w s (.run w)).map fun n => Op.wake n.1 := by
  simp only [Queue.commits, wakes]
  generalize s.pc w = q at h
  cases q with
  | deleteNext d prev =>
    cases d with
    | finish => cases h
    | autoremove process curr next => rfl
  | wakeFunc process curr next => simp
  | waitReset | prepareState | waitSchedule | sigCondition process => cases h
  | _ => rfl

theorem Visiting.commits_run {ys : List Action} (h : Run Queue.step (Alone w) s ys s') (hi : Inv s l')
    (hv : Visiting l notes l' (s.pc w)) : observe Queue.step (Queue.commits a) s ys =
      (observe Queue.step (wakes w) s ys).map fun n => Op.wake n.1 := by
  induction h generalizing l' notes with
  | nil s => rfl
  | cons hx hstep _ ih =>
    obtain ⟨rfl, hdone⟩ := hx
    rw [observe, observe, hstep, Option.elim_some, Option.elim_some, List.map_append, hv.commits,
      ih (hi.step hstep) (hv.step hi (fun _ => hdone) hstep)]

end

/-- When no other task interferes, the loop of `wake_up_all` does to the list what the single
step of the calls does. -/
theorem wake_up_all_alone (links : Links ListHead) (a : Addr) (c c' : DoEvent.State)
    (xs ys : List Action) (s s' : State) (w : Task) (process : ℕ) (hq : (c.mem a).queue = [])
    (hc : (c.mem a).condition = 0) (hs : ∀ t, c.sched t = Sched.fresh)
    (hxs : Steps (init links) xs s)
    (hc' : c' = (observe step (commits a) (init links) xs).foldl (Op.apply a) c)
    (hw : s.pc w = .wakeFirst process) (hys : Run step (Alone w) s ys s')
    (hend : s'.pc w = .wakeUnlock process) :
    (observe step (commits a) s ys).foldl (Op.apply a) c' = wakeUpAll c' a := by
  obtain ⟨l, hr⟩ := (Rel.init links hq hc hs).run hxs
  rw [← hc'] at hr
  have hlock : s.lock = some w := (hr.inv.lock w).mpr (by rw [hw]; rfl)
  have hl : l = (c'.mem a).queue := by
    have hahead := hr.holder w hlock
    rw [hw] at hahead
    exact hahead
  have hkeeps : Run step (Keeps w) s ys s' := hys.mono fun s x hx _ => hx.2
  obtain ⟨l', _, hv⟩ := Visiting.run hkeeps hr.inv hw
  rw [hend] at hv
  have hstart : Visiting l [] l (s.pc w) := by
    rw [hw]
    exact ⟨rfl, rfl⟩
  have hnotes : observe step (commits a) s ys = l.map Op.wake := by
    rw [hstart.commits_run hys hr.inv, ← hv.1, List.map_map]
    rfl
  rw [hnotes, List.foldl_map, wakeUpAll_eq (hl ▸ hr.inv.nodup), ← hl]
  rfl

theorem wake_up_all_alone_two :
    ∃ s s' c, Steps (init blank) (sleeps 1 ++ sleeps 2 ++ .sig 3 :: runs 3 6) s ∧
      Run step (Alone 3) s (runs 3 20) s' ∧
      (observe step (commits 1) s (runs 3 20)).foldl (Op.apply 1) c = wakeUpAll c 1 ∧
      (c.mem 1).queue = [2, 1] ∧ ((wakeUpAll c 1).mem 1).queue = [] := by
  have hsteps : ((steps step (fun _ _ => true) (init blank)
      (sleeps 1 ++ sleeps 2 ++ .sig 3 :: runs 3 6)).map fun s => s.pc 3 == .wakeFirst 2 &&
        (steps step (fun s x => x == .run 3 && !(s.pc 3).wakeDone) s (runs 3 20)).map (fun s' =>
          s'.pc 3 == .wakeUnlock 2) == some true) = some true := by
    decide +kernel
  obtain ⟨s, hs, ht⟩ := Option.map_eq_some_iff.mp hsteps
  simp only [Bool.and_eq_true, beq_iff_eq] at ht
  obtain ⟨hpc, hrest⟩ := ht
  obtain ⟨s', hs', hpc'⟩ := Option.map_eq_some_iff.mp hrest
  have hr : Steps (init blank) (sleeps 1 ++ sleeps 2 ++ .sig 3 :: runs 3 6) s :=
    .of_steps (fun _ _ => true) hs fun _ _ _ => trivial
  have hr' : Run step (Alone 3) s (runs 3 20) s' :=
    .of_steps _ hs' fun _ _ h => by simpa [Alone] using h
  have hq : (((observe step (commits 1) (init blank)
      (sleeps 1 ++ sleeps 2 ++ .sig 3 :: runs 3 6)).foldl (Op.apply 1) boot).mem 1).queue = [2, 1] ∧
      ((wakeUpAll ((observe step (commits 1) (init blank)
        (sleeps 1 ++ sleeps 2 ++ .sig 3 :: runs 3 6)).foldl (Op.apply 1) boot) 1).mem 1).queue = [] := by
    decide +kernel
  exact ⟨s, s', _, hr, hr', wake_up_all_alone blank 1 boot _ _ _ s s' 3 2 rfl rfl (fun _ => rfl) hr rfl
    hpc hr' (beq_iff_eq.mp hpc'), hq⟩

end DoEvent.Queue
