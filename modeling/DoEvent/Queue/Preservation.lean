import DoEvent.Queue.Invariant

/-!
# Every step keeps the queue

The additions and deletions of entries, the turns of the wake-up loop, and the steps that
need no lock, in this order; then the invariant over every schedule.
-/

namespace DoEvent.Queue

open Shared Transition
open Links (Store linkStores unlinkStores SelfLinked)

section
variable {s s' : State} {l l' : List Task} {t u v : Task} {p : Pc}

theorem first_mem {l : List Task} {u : Task} (h : first l = .entry u) : u ∈ l := by
  cases l with
  | nil => cases h
  | cons a l =>
    cases h
    exact List.mem_cons_self ..

/-- `__list_add` of the entry of `t` behind the head. -/
theorem storesOk_link (l : List Task) (t : Task) :
    StoresOk (t :: l) t t (linkStores (.entry t) .taskList (first l)) := by
  intro w hw
  simp only [linkStores, List.mem_cons, List.not_mem_nil, or_false] at hw
  rcases hw with rfl | rfl | rfl | rfl
  · exact ⟨fun u hu => .inl (List.mem_cons_of_mem _ (first_mem hu)), fun u hu => by cases hu⟩
  · refine ⟨fun u hu => .inr (ListHead.entry.inj hu).symm, fun u hu _ => ?_⟩
    injection hu with hu _
    exact (ListHead.entry.inj hu).symm
  · exact ⟨fun u hu => .inr (ListHead.entry.inj hu).symm, fun u hu => by cases hu⟩
  · exact ⟨fun u hu => (by cases hu), fun u hu => by cases hu⟩

/-- `list_del_init` of the entry of `d`. -/
theorem storesOk_unlink {k : Links ListHead} {l : List Task} {d : Task}
    (hr : k.Ring .taskList (l.map .entry)) (hl : l.Nodup) (hd : d ∈ l) (t : Task) :
    StoresOk (l.erase d) t d (unlinkStores (.entry d) (k.prev (.entry d)) (k.next (.entry d))) := by
  have hd' : ListHead.entry d ∈ l.map .entry := entry_mem.mpr hd
  have hmem : ∀ u, ListHead.entry u ∈ ListHead.taskList :: l.map .entry → u ∈ l.erase d ∨ u = d := by
    intro u hu
    have hul : u ∈ l := by simpa using hu
    by_cases hud : u = d
    · exact .inr hud
    · exact .inl ((List.mem_erase_of_ne hud).mpr hul)
  intro w hw
  simp only [unlinkStores, List.mem_cons, List.not_mem_nil, or_false] at hw
  rcases hw with rfl | rfl | rfl | rfl
  · exact ⟨fun u hu => hmem u (hu ▸ hr.next_mem hd'), fun u hu => by cases hu⟩
  · refine ⟨fun u hu => hmem u (hu ▸ hr.prev_mem hd'), fun u hu _ => ?_⟩
    injection hu with hprev hnext
    have hhead := hr.next_of_prev_eq hd' (hprev.trans hnext.symm)
    rw [hhead] at hnext
    cases hnext
  · refine ⟨fun u hu => .inr (ListHead.entry.inj hu).symm, fun u hu hm => ?_⟩
    injection hu with hu _
    cases hu
    exact absurd hm hl.not_mem_erase
  · exact ⟨fun u hu => .inr (ListHead.entry.inj hu).symm, fun u hu => by cases hu⟩

/-! ### The sections -/

theorem Inv.nodup (hi : Inv s l) : l.Nodup := by
  have h := (List.nodup_cons.mp hi.ring.nodup).2
  exact List.Nodup.of_map _ h

theorem Inv.absent (hi : Inv s l) (h : (s.pc t).linkable = false) : t ∉ l := by
  intro hm
  rw [hi.linkable t hm] at h
  cases h

theorem Inv.beginAdd (hi : Inv s l) (ht : s.lock = some t) (hrq : (s.sched t).onRq = true)
    {next : ListHead} (hpc : s.pc t = .prepareWarnNext next) :
    Inv (s.goto t (.stores (linkStores (.entry t) .taskList next) .listAdd)) (t :: l) := by
  have htodo : (s.pc t).todo = [] := by rw [hpc]; rfl
  have hm : t ∉ l := hi.absent (by rw [hpc]; rfl)
  have hring := hi.ring_section ht htodo
  have hnext : next = s.links.next .taskList := by
    have h := hi.holder t ht
    rw [hpc] at h
    exact h
  have hfirst : next = first l := hnext.trans hring.next_head
  have hstores := storesOk_link l t
  rw [← hfirst] at hstores
  refine hi.begin ht hrq htodo rfl hstores ?_ ?_ ?_ ?_ ?_ ?_ ?_ ⟨hstores, ?_⟩
  · rw [hnext]
    exact hring.addHead (by simp [hm])
  · intro v hv
    simp [hv]
  · exact fun h => absurd (List.mem_cons_self ..) h
  · exact fun h => absurd rfl h
  · exact fun _ => rfl
  · exact fun _ => List.mem_cons_self ..
  · exact fun _ => rfl
  · intro w hw u b he
    subst he
    have h : u = t ∧ b = next := by simpa [linkStores] using hw
    exact h.1

/-- What both uses of `list_del_init` share. -/
theorem Inv.beginDelete (hi : Inv s l) (ht : s.lock = some t) (hrq : (s.sched t).onRq = true)
    {d : Delete} {prev : ListHead} (hpc : s.pc t = .deleteNext d prev) (hmem : d.task t ∈ l)
    (hprev : prev = s.links.prev (.entry (d.task t)))
    (hwoken : d.task t ≠ t → Woken s.sched s.pc (d.task t))
    (hself : t ∈ l → d.task t = t)
    (hready : (Pc.stores [] (.listDelInit d)).ready = true → t = d.task t)
    (hok : ∀ todo, StoresOk (l.erase (d.task t)) t (d.task t) todo →
      SectionOk s (l.erase (d.task t)) t (.stores todo (.listDelInit d))) :
    Inv (s.goto t (.stores (unlinkStores (.entry (d.task t)) prev (s.links.next (.entry (d.task t))))
      (.listDelInit d))) (l.erase (d.task t)) := by
  have htodo : (s.pc t).todo = [] := by rw [hpc]; rfl
  have hring := hi.ring_section ht htodo
  have hstores := storesOk_unlink hring hi.nodup hmem t
  have hout : d.task t ∉ l.erase (d.task t) := hi.nodup.not_mem_erase
  rw [← hprev] at hstores
  have hunlink := hring.unlink (entry_mem.mpr hmem)
  rw [← List.map_erase (fun a b h => ListHead.entry.inj h), ← hprev] at hunlink
  refine hi.begin ht hrq htodo rfl hstores hunlink ?_ ?_ (fun h => ⟨hout, hwoken h⟩) ?_ ?_ ?_
    (hok _ hstores)
  · exact fun v hv => List.mem_erase_of_ne hv
  · refine fun _ => ⟨?_, ?_⟩
    · exact (Links.unlink_next ..).trans (if_pos rfl)
    · exact (Links.unlink_prev ..).trans (if_pos rfl)
  · intro hm
    rw [hself (List.mem_of_mem_erase hm)] at hm hout
    exact absurd hm hout
  · exact fun h => by cases d <;> cases h
  · rw [(Pc.stores_same [] _ (.listDelInit d)).2.2]
    exact hready

theorem tryToWakeUp_state (p : Sched) : (tryToWakeUp p).1.state = .running := by
  unfold tryToWakeUp
  split <;> first | rfl | assumption

theorem tryToWakeUp_onRq {p : Sched} (h : p.onRq = false → p.state = .interruptible) :
    (tryToWakeUp p).1.onRq = true := by
  unfold tryToWakeUp
  split
  · next hs =>
    by_contra hr
    have hi := h (by simpa using hr)
    rw [hs] at hi
    cases hi
  · next hr => exact hr
  · rfl

theorem tryToWakeUp_success {p : Sched} (h : (tryToWakeUp p).2 = true) : p.onRq = false := by
  unfold tryToWakeUp at h
  split at h
  · cases h
  · cases h
  · next hr => exact hr

/-! ### All steps -/

/-- A way from one program counter to another without the lock, on which the entry keeps its
place. -/
def Pc.walks (q p : Pc) : Bool :=
  !q.locked && !p.locked && (!q.linkable || p.linkable) && (!p.linked || q.linked) &&
    (!p.ready || q.ready) && (!q.between || p.between) && p != .finishPrev

theorem Inv.walk (hi : Inv s l) (hw : (s.pc t).walks p = true) (hfresh : Fresh s.links t p)
    (condition : Int32) {sched : Task → Sched}
    (hsched : ∀ v, (s.sched v).state = .running → (sched v).state = .running)
    (hasleep : ∀ v, (sched v).onRq = false →
      (s.goto t p).pc v = .waitAsleep ∧ v ∈ l ∧ (sched v).state = .interruptible) :
    Inv ({ s with condition := condition, sched := sched }.goto t p) l := by
  simp only [Pc.walks, Bool.and_eq_true, Bool.not_eq_true', Bool.or_eq_true, bne_iff_ne] at hw
  obtain ⟨⟨⟨⟨⟨⟨hq, hp⟩, hcan⟩, hmust⟩, hready⟩, hbetween⟩, hcareful⟩ := hw
  refine hi.outside rfl hq rfl hp (fun _ _ => .rfl) hsched hasleep ?_ ?_ ?_ ?_ hfresh hcareful rfl
  · intro hm
    exact hcan.resolve_left (by simp [hi.linkable t hm])
  · intro hl
    exact hi.linked t (hmust.resolve_left (by simp [hl]))
  · intro _ hr
    exact .inl (hready.resolve_left (by simp [hr]))
  · intro hb
    exact hbetween.resolve_left (by simp [hb])

/-- The queue after a step of `t`. -/
def Pc.moved (t : Task) (l : List Task) : Pc → List Task
  | .prepareWarnNext _ => t :: l
  | .deleteNext d _ => l.erase (d.task t)
  | _ => l

theorem Inv.defineWait_store (hi : Inv s l) (hrq : (s.sched t).onRq = true) {w : Store ListHead}
    {todo : List (Store ListHead)} (hpc : s.pc t = .stores (w :: todo) .defineWait) :
    Inv ({ s with links := s.links.store w }.goto t (.stores todo .defineWait)) l := by
  have hm : t ∉ l := (hi.fresh_apart ⟨_, hpc⟩).1
  have hfresh := hi.fresh t
  rw [hpc] at hfresh
  refine hi.outside rfl (by rw [hpc]; rfl) rfl rfl ?_ (fun _ h => h) (hi.asleep_goto hrq)
    (fun h => absurd h hm) (fun h => by cases h) (fun _ h => by cases h)
    (fun h => by rw [hpc] at h; cases h) ⟨fun v hv => hfresh.1 v (List.mem_cons_of_mem _ hv), hfresh.2⟩
    (fun h => by cases h) rfl
  intro a ha
  refine Links.store_same fun hw => ?_
  rw [hfresh.1 w (List.mem_cons_self ..)] at hw
  rcases ha hw.symm with h | h
  · exact hm h
  · rw [hpc] at h
    cases h

theorem Inv.defineWait_done (hi : Inv s l) (hrq : (s.sched t).onRq = true)
    (hpc : s.pc t = .stores [] .defineWait) : Inv (s.goto t .prepareLock) l := by
  have hm : t ∉ l := (hi.fresh_apart ⟨_, hpc⟩).1
  have hfresh := hi.fresh t
  rw [hpc] at hfresh
  exact hi.outside rfl (by rw [hpc]; rfl) rfl rfl (fun _ _ => .rfl) (fun _ h => h)
    (hi.asleep_goto hrq) (fun h => absurd h hm) (fun h => by cases h)
    (fun _ _ => .inr ⟨by rw [hpc]; rfl, hfresh.2⟩) (fun h => by rw [hpc] at h; cases h) trivial
    (fun h => by cases h) rfl

theorem fresh_initListHead (k : Links ListHead) (t : Task) :
    Fresh k t (.stores (initListHead (.entry t)) .defineWait) := by
  refine ⟨fun w hw => ?_, ?_, ?_⟩
  · simp only [initListHead, List.mem_cons, List.not_mem_nil, or_false] at hw
    rcases hw with rfl | rfl <;> rfl
  · exact Function.update_self ..
  · exact Function.update_self ..

theorem schedule_running {q : Sched} (h : q.state = .running) : schedule q = q := by
  simp [schedule, h]

theorem schedule_off {q : Sched} (hq : q.onRq = true) (h : (schedule q).onRq = false) :
    (schedule q).state = .interruptible := by
  unfold schedule at h ⊢
  split at h
  · rw [hq] at h
    cases h
  · next hs =>
    split_ifs at h ⊢
    · rw [hq] at h
      cases h
    · exact hs

/-- `schedule()` in the wait loop: the task goes off the run queue with its entry linked. -/
theorem Inv.waitSchedule (hi : Inv s l) (hrq : (s.sched t).onRq = true)
    (hpc : s.pc t = .waitSchedule) :
    Inv ((s.setSched t (schedule (s.sched t))).goto t .waitAsleep) l := by
  refine hi.walk (t := t) (p := .waitAsleep) (by rw [hpc]; rfl) trivial s.condition ?_ ?_ <;> intro v hv <;>
    by_cases hvt : v = t
  · subst hvt
    rw [Function.update_self, schedule_running hv]
    exact hv
  · rwa [Function.update_of_ne hvt]
  · subst hvt
    rw [Function.update_self] at hv ⊢
    exact ⟨goto_self .., hi.linked v (by rw [hpc]; rfl), schedule_off hrq hv⟩
  · rw [Function.update_of_ne hvt] at hv ⊢
    exact hi.asleep_goto hrq v hv

theorem Inv.finishState (hi : Inv s l) (hrq : (s.sched t).onRq = true)
    (hpc : s.pc t = .finishState) :
    Inv ((s.setSched t { s.sched t with state := .running }).goto t .finishNext) l := by
  refine hi.walk (t := t) (p := .finishNext) (by rw [hpc]; rfl) trivial s.condition ?_ ?_ <;> intro v hv <;>
    by_cases hvt : v = t
  · subst hvt
    rw [Function.update_self]
  · rwa [Function.update_of_ne hvt]
  · subst hvt
    rw [Function.update_self] at hv
    exact absurd (hrq.symm.trans hv) (by decide)
  · rw [Function.update_of_ne hvt] at hv ⊢
    exact hi.asleep_goto hrq v hv

theorem apply_lock {m : State} (h : apply s t .lock = some m) :
    s.lock = none ∧ m = { s with lock := some t } := by
  simp only [apply] at h
  split at h
  · next hfree =>
    cases h
    exact ⟨hfree, rfl⟩
  · cases h

theorem Inv.run_unlocked (hi : Inv s l) (hrq : (s.sched t).onRq = true) {e : Effect} {m : State}
    (hu : (s.pc t).locked = false) (hnext : next s t (s.pc t) = some (e, p))
    (happly : apply s t e = some m) : Inv (m.goto t p) ((s.pc t).moved t l) := by
  have hwalk : ∀ {q p : Pc} (c : Int32), s.pc t = q → q.walks p = true → Fresh s.links t p →
      Inv ({ s with condition := c }.goto t p) l := fun c hpc hw hf =>
    hi.walk (hpc ▸ hw) hf c (fun _ h => h) (hi.asleep_goto hrq)
  generalize hpc : s.pc t = q at hu hnext ⊢
  cases q with
  | user => cases hnext
  | ret r | waitAsleep | waitReset | sigCondition process =>
    cases hnext
    cases happly
    exact hwalk _ hpc rfl trivial
  | stores todo k =>
    cases k with
    | listAdd | listDelInit d => cases hu
    | defineWait =>
      cases todo with
      | nil =>
        cases hnext
        cases happly
        exact hi.defineWait_done hrq hpc
      | cons w todo =>
        cases hnext
        cases happly
        exact hi.defineWait_store hrq hpc
  | waitTest =>
    cases hnext
    cases happly
    split_ifs
    · exact hwalk _ hpc rfl trivial
    · exact hwalk _ hpc rfl (fresh_initListHead ..)
  | waitRetest | waitSignal | sigActive =>
    cases hnext
    cases happly
    split_ifs <;> exact hwalk _ hpc rfl trivial
  | sigFirst | sigNext pos process =>
    cases hnext
    cases happly
    unfold sigLoop
    split_ifs <;> exact hwalk _ hpc rfl trivial
  | waitSchedule =>
    cases hnext
    cases happly
    exact hi.waitSchedule hrq hpc
  | finishState =>
    cases hnext
    cases happly
    exact hi.finishState hrq hpc
  | finishNext =>
    cases hnext
    cases happly
    have hm : t ∈ l := hi.linked t (by rw [hpc]; rfl)
    have hnot : s.lock ≠ some t := fun h => by
      have hl := (hi.lock t).mp h
      rw [hpc] at hl
      cases hl
    rw [if_neg (hi.apart t hm hnot)]
    exact hwalk _ hpc rfl trivial
  | finishPrev => exact absurd hpc (hi.careful t)
  | prepareLock =>
    cases hnext
    obtain ⟨hfree, rfl⟩ := apply_lock happly
    exact hi.acquire hfree hrq rfl rfl (fun _ => rfl) (fun h => by cases h) (fun _ => by rw [hpc]; rfl)
      trivial fun _ => trivial
  | finishLock =>
    cases hnext
    obtain ⟨hfree, rfl⟩ := apply_lock happly
    exact hi.acquire hfree hrq rfl rfl (fun _ => rfl) (fun _ => hi.linked t (by rw [hpc]; rfl))
      (fun _ => by rw [hpc]; rfl) trivial fun _ => trivial
  | wakeLock process =>
    cases hnext
    obtain ⟨hfree, rfl⟩ := apply_lock happly
    have hm : t ∉ l := hi.absent (by rw [hpc]; rfl)
    exact hi.acquire hfree hrq rfl rfl (fun h => absurd h hm) (fun h => by cases h)
      (fun h => by cases h) trivial fun _ => trivial
  | _ => cases hu

theorem Inv.prepareState (hi : Inv s l) (ht : s.lock = some t) (hrq : (s.sched t).onRq = true)
    (hpc : s.pc t = .prepareState) :
    Inv ((s.setSched t { s.sched t with state := .interruptible }).goto t .prepareUnlock) l := by
  refine hi.resched (t := t) (p := .prepareUnlock) ht hrq (by rw [hpc]; rfl) rfl rfl (fun _ => rfl)
    (fun _ => hi.linked t (by rw [hpc]; rfl)) (fun _ => by rw [hpc]; rfl) ?_ trivial
  intro v hv
  by_cases hvt : v = t
  · subst hvt
    rw [Function.update_self] at hv
    exact absurd (hrq.symm.trans hv) (by decide)
  · exact Function.update_of_ne hvt ..

/-- One turn of the loop of `__wake_up_common`: the task passes, and when the wake-up
succeeded it is still on its way back to `prepare_to_wait`. -/
theorem Inv.wakeFunc (hi : Inv s l) (ht : s.lock = some t) (hrq : (s.sched t).onRq = true)
    {process : ℕ} {curr : Task} {next : ListHead} (hpc : s.pc t = .wakeFunc process curr next) :
    Inv ((s.setSched curr (tryToWakeUp (s.sched curr)).1).goto t
      (if (tryToWakeUp (s.sched curr)).2 then .deletePrev (.autoremove process curr next)
        else .wakeNext process next)) l := by
  have hm : t ∉ l := hi.absent (by rw [hpc]; rfl)
  have hok := hi.holder t ht
  rw [hpc] at hok
  obtain ⟨ys, ⟨xs, hl, hxs⟩, hnext⟩ := hok
  have hsched : ∀ v, (Function.update s.sched curr (tryToWakeUp (s.sched curr)).1 v).onRq = false →
      Function.update s.sched curr (tryToWakeUp (s.sched curr)).1 v = s.sched v := by
    intro v hv
    by_cases hvc : v = curr
    · subst hvc
      rw [Function.update_self, tryToWakeUp_onRq fun h => (hi.asleep v h).2.2] at hv
      cases hv
    · exact Function.update_of_ne hvc ..
  have hpassed : ∀ u ∈ xs ++ [curr],
      (Function.update s.sched curr (tryToWakeUp (s.sched curr)).1 u).state = .running := by
    intro u hu
    by_cases huc : u = curr
    · rw [huc, Function.update_self]
      exact tryToWakeUp_state _
    · rw [Function.update_of_ne huc]
      exact hxs u ((List.mem_append.mp hu).resolve_right (by simpa using huc))
  cases hwake : (tryToWakeUp (s.sched curr)).2 with
  | false =>
    refine hi.resched ht hrq (by rw [hpc]; rfl) rfl rfl (fun h => absurd h hm) (fun h => by cases h)
      (fun h => by cases h) hsched ⟨ys, ⟨xs ++ [curr], by simp [hl], hpassed⟩, hnext⟩
  | true =>
    have hasleep := (hi.asleep curr (tryToWakeUp_success hwake)).1
    have hct : curr ≠ t := by
      rintro rfl
      rw [hpc] at hasleep
      cases hasleep
    refine hi.resched ht hrq (by rw [hpc]; rfl) rfl rfl (fun h => absurd h hm) (fun h => by cases h)
      (fun h => by cases h) hsched ⟨⟨?_, hpassed curr (by simp)⟩, ys,
        ⟨xs, hl, fun u hu => hpassed u (List.mem_append_left _ hu)⟩, hnext⟩
    rw [goto_of_ne _ _ hct]
    exact congrArg Pc.between hasleep

theorem Inv.run_locked (hi : Inv s l) (hrq : (s.sched t).onRq = true) {e : Effect} {m : State}
    (hu : (s.pc t).locked = true) (hnext : next s t (s.pc t) = some (e, p))
    (happly : apply s t e = some m) : Inv (m.goto t p) ((s.pc t).moved t l) := by
  have ht : s.lock = some t := (hi.lock t).mpr hu
  have hok := hi.holder t ht
  have hload : ∀ {q p : Pc}, s.pc t = q → q.todo = [] → p.locked = true → p.todo = [] →
      (t ∈ l → p.linkable = true) → (p.linked = true → t ∈ l) → (p.ready = true → q.ready = true) →
      SectionOk s l t p → Inv (s.goto t p) l := fun hpc htodo hp htodo' hcan hmust hready hok =>
    hi.load ht hrq (hpc ▸ htodo) hp htodo' hcan hmust (hpc ▸ hready) hok
  have hring := hi.ring_section ht
  have hmem := hi.linked t
  have habsent := hi.absent (t := t)
  generalize hpc : s.pc t = q at hu hnext hok hring hmem habsent ⊢
  cases q with
  | prepareEmpty =>
    cases hnext
    cases happly
    have hbare := hi.bare t
    rw [settled_of_lock ht, hpc] at hbare
    split_ifs with hself
    · refine hload hpc rfl rfl rfl (fun hm => ?_) (fun h => by cases h) (fun _ => rfl) trivial
      exact absurd hself ((hring rfl).next_ne (entry_mem.mpr hm))
    · have hm : t ∈ l := by
        by_contra hn
        exact hself (hbare hn rfl).1
      exact hload hpc rfl rfl rfl (fun _ => rfl) (fun _ => hm) (fun _ => rfl) trivial
  | prepareHead =>
    cases hnext
    cases happly
    exact hload hpc rfl rfl rfl (fun hm => absurd hm (habsent rfl)) (fun h => by cases h)
      (fun _ => rfl) rfl
  | prepareWarnPrev next =>
    have hback := ((hring rfl).inverse (List.mem_cons_self ..)).1
    rw [← hok] at hback
    simp only [Queue.next, hback, ne_eq, not_true_eq_false, if_false] at hnext
    cases hnext
    cases happly
    exact hload hpc rfl rfl rfl (fun hm => absurd hm (habsent rfl)) (fun h => by cases h)
      (fun _ => rfl) hok
  | prepareWarnNext next =>
    have hfirst : s.links.next .taskList = next := Eq.symm hok
    simp only [Queue.next, hfirst, ne_eq, not_true_eq_false, if_false] at hnext
    cases hnext
    cases happly
    exact hi.beginAdd ht hrq hpc
  | prepareState =>
    cases hnext
    cases happly
    exact hi.prepareState ht hrq hpc
  | prepareUnlock =>
    cases hnext
    cases happly
    exact hi.release ht hrq (by rw [hpc]; rfl) rfl (fun _ => rfl) (fun _ => hmem rfl)
      (fun _ => by rw [hpc]; rfl) trivial (fun h => by cases h)
  | finishUnlock =>
    cases hnext
    cases happly
    exact hi.release ht hrq (by rw [hpc]; rfl) rfl (fun h => absurd h (habsent rfl))
      (fun h => by cases h) (fun h => by cases h) trivial (fun h => by cases h)
  | wakeUnlock process =>
    cases hnext
    cases happly
    exact hi.release ht hrq (by rw [hpc]; rfl) rfl (fun h => absurd h (habsent rfl))
      (fun h => by cases h) (fun h => by cases h) trivial (fun h => by cases h)
  | stores todo k =>
    cases todo with
    | cons w todo =>
      cases hnext
      cases happly
      exact hi.store ht hrq hpc
    | nil =>
      cases hnext
      cases happly
      cases k with
      | defineWait => cases hu
      | listAdd =>
        exact hload hpc rfl rfl rfl (fun _ => rfl) (fun _ => hmem rfl) (fun _ => rfl) trivial
      | listDelInit d =>
        cases d with
        | finish =>
          exact hload hpc rfl rfl rfl (fun hm => absurd hm (habsent rfl)) (fun h => by cases h)
            (fun _ => rfl) trivial
        | autoremove process curr next =>
          exact hload hpc rfl rfl rfl (fun hm => absurd hm (habsent rfl)) (fun h => by cases h)
            (fun h => by cases h) hok.2.2.2
  | deletePrev d =>
    cases hnext
    cases happly
    cases d with
    | finish => exact hload hpc rfl rfl rfl (fun _ => rfl) (fun _ => hmem rfl) (fun _ => rfl) rfl
    | autoremove process curr next =>
      exact hload hpc rfl rfl rfl (fun hm => absurd hm (habsent rfl)) (fun h => by cases h)
        (fun h => by cases h) ⟨rfl, hok⟩
  | deleteNext d prev =>
    cases hnext
    cases happly
    cases d with
    | finish =>
      exact hi.beginDelete ht hrq hpc (hmem rfl) hok (fun h => absurd rfl h) (fun _ => rfl)
        (fun _ => rfl) fun _ h => h
    | autoremove process curr next =>
      obtain ⟨hprev, hwoken, ys, ⟨xs, hl, hxs⟩, hnext⟩ := hok
      have hcurr : curr ∈ l := by simp [hl]
      refine hi.beginDelete ht hrq hpc hcurr hprev (fun _ => hwoken)
        (fun hm => absurd hm (habsent rfl)) (fun h => by cases h) fun todo htodo =>
          ⟨htodo, hi.nodup.not_mem_erase, hwoken, ys, ⟨xs, ?_, hxs⟩, hnext⟩
      have hnodup := hi.nodup
      rw [hl, List.nodup_append] at hnodup
      have hx : curr ∉ xs := fun h => hnodup.2.2 curr h curr (List.mem_cons_self ..) rfl
      show l.erase curr = xs ++ ys
      rw [hl, List.erase_append_right _ hx, List.erase_cons_head]
  | wakeFirst process =>
    cases hnext
    cases happly
    refine hload hpc rfl rfl rfl (fun hm => absurd hm (habsent rfl)) (fun h => by cases h)
      (fun h => by cases h) ⟨l, ⟨[], rfl, fun u hu => by cases hu⟩, ?_⟩
    exact (hring rfl).next_head
  | wakeNext process curr =>
    obtain ⟨ys, ⟨xs, hl, hxs⟩, hcurr⟩ := hok
    cases ys with
    | nil =>
      have hc : curr = .taskList := hcurr
      subst hc
      cases hnext
      cases happly
      exact hload hpc rfl rfl rfl (fun hm => absurd hm (habsent rfl)) (fun h => by cases h)
        (fun h => by cases h) ⟨xs, hl, hxs⟩
    | cons c ys =>
      have hc : curr = .entry c := hcurr
      subst hc
      cases hnext
      cases happly
      refine hload hpc rfl rfl rfl (fun hm => absurd hm (habsent rfl)) (fun h => by cases h)
        (fun h => by cases h) ⟨ys, ⟨xs, hl, hxs⟩, ?_⟩
      have hr := hring rfl
      rw [hl, List.map_append, List.map_cons] at hr
      exact hr.next_member
  | wakeFunc process curr next =>
    cases hnext
    cases happly
    exact hi.wakeFunc ht hrq hpc
  | _ => cases hu

/-- A step that no program counter takes part in: it leaves the entries alone whose frames
are on a stack, and puts no task off the run queue. -/
theorem Inv.still (hi : Inv s l) (hpc : s'.pc = s.pc) (hlock : s'.lock = s.lock)
    (hlinks : ∀ a, (∀ u, a = .entry u → (s.pc u).framed = true) → s'.links.Same s.links a)
    (hrun : ∀ v, (s.sched v).state = .running → (s'.sched v).state = .running)
    (hoff : ∀ v, (s'.sched v).onRq = false → s'.sched v = s.sched v)
    (hwarned : s'.warned = s.warned) : Inv s' l := by
  have hentry : ∀ u, (s.pc u).framed = true → s'.links.Same s.links (.entry u) := fun u hu =>
    hlinks _ fun v hv => ListHead.entry.inj hv ▸ hu
  have hmem : ∀ a ∈ ListHead.taskList :: l.map .entry, s'.links.Same s.links a := by
    intro a ha
    refine hlinks a ?_
    rintro u rfl
    have hu : u ∈ l := by simpa using ha
    exact Pc.framed_of_ready (Pc.ready_of_linkable (hi.linkable u hu))
  have htodo : s'.todo = s.todo := by rw [State.todo, State.todo, hlock, hpc]
  have hsettled : ∀ a, s'.links.Same s.links a → s'.settled.Same s.settled a := fun a ha => by
    rw [State.settled, State.settled, htodo]
    exact Links.storeAll_same ha _
  refine ⟨?_, hi.ring.congr fun a ha => hsettled a (hmem a ha), ?_, ?_, ?_, ?_, ?_, ?_, ?_, ?_,
    hwarned.trans hi.warned⟩
  · rw [hlock, hpc]
    exact hi.lock
  · rw [hpc]
    exact hi.linkable
  · rw [hpc]
    exact hi.linked
  · intro t hm hr
    rw [hpc] at hr
    exact (hi.bare t hm hr).congr (hsettled _ (hentry t (Pc.framed_of_ready hr)))
  · intro t
    rw [hpc]
    refine (hi.fresh t).frame ?_
    rintro ⟨todo, ht⟩
    exact hentry t (by rw [ht]; rfl)
  · intro t hm hl
    rw [(hmem _ (List.mem_cons_of_mem _ (entry_mem.mpr hm))).1]
    exact hi.apart t hm (hlock ▸ hl)
  · intro t ht
    have hsame := hoff t ht
    rw [hsame] at ht ⊢
    rw [hpc]
    exact hi.asleep t ht
  · intro t ht
    rw [hpc]
    exact (hi.holder t (hlock ▸ ht)).frame (hi.linked t) hmem hrun fun v hv => by rwa [hpc]
  · rw [hpc]
    exact hi.careful

theorem Inv.onRq_user (hi : Inv s l) (h : s.pc t = .user) : (s.sched t).onRq = true := by
  by_contra hr
  have ha := (hi.asleep t (by simpa using hr)).1
  rw [h] at ha
  cases ha

theorem signalWakeUp_running {q : Sched} (h : q.state = .running) :
    (signalWakeUp q).state = .running := by
  simp [signalWakeUp, tryToWakeUp, h]

theorem signalWakeUp_onRq {q : Sched} (h : q.onRq = false → q.state = .interruptible) :
    (signalWakeUp q).onRq = true := tryToWakeUp_onRq h

/-- The queue after a step. -/
def queueStep (s : State) (l : List Task) : Action → List Task
  | .run t => (s.pc t).moved t l
  | _ => l

theorem run_eq_some {x : Task} (h : step s (.run x) = some s') :
    (s.sched x).onRq = true ∧ ∃ e p m, next s x (s.pc x) = some (e, p) ∧ apply s x e = some m ∧
      s' = m.goto x p := by
  simp only [step] at h
  split at h
  · next hrq =>
    obtain ⟨⟨e, p⟩, hnext, h⟩ := Option.bind_eq_some_iff.mp h
    obtain ⟨m, happly, rfl⟩ := Option.map_eq_some_iff.mp h
    exact ⟨hrq, e, p, m, hnext, happly, rfl⟩
  · cases h

theorem Inv.step {x : Action} (hi : Inv s l) (h : step s x = some s') :
    Inv s' (queueStep s l x) := by
  cases x with
  | wait t =>
    simp only [Queue.step] at h
    split at h
    · next hpc =>
      cases h
      exact hi.walk (t := t) (p := .waitReset) (by rw [hpc]; rfl) trivial s.condition (fun _ h => h)
        (hi.asleep_goto (hi.onRq_user hpc))
    · cases h
  | sig t =>
    simp only [Queue.step] at h
    split at h
    · next hpc =>
      cases h
      exact hi.walk (t := t) (p := .sigActive) (by rw [hpc]; rfl) trivial s.condition (fun _ h => h)
        (hi.asleep_goto (hi.onRq_user hpc))
    · cases h
  | run t =>
    obtain ⟨hrq, e, p, m, hnext, happly, rfl⟩ := run_eq_some h
    cases hl : (s.pc t).locked with
    | false => exact hi.run_unlocked hrq hl hnext happly
    | true => exact hi.run_locked hrq hl hnext happly
  | posix t =>
    cases h
    refine hi.still rfl rfl (fun _ _ => .rfl) ?_ ?_ rfl <;> intro v hv <;> by_cases hvt : v = t
    · subst hvt
      simpa [State.setSched] using signalWakeUp_running hv
    · simpa [State.setSched, Function.update_of_ne hvt] using hv
    · subst hvt
      simp [State.setSched, signalWakeUp_onRq fun h => (hi.asleep v h).2.2] at hv
    · simp [State.setSched, Function.update_of_ne hvt]
  | deliver t =>
    simp only [Queue.step] at h
    split at h
    · next hpc =>
      cases h
      refine hi.still rfl rfl (fun _ _ => .rfl) ?_ ?_ rfl <;> intro v hv <;> by_cases hvt : v = t
      · subst hvt
        simpa [State.setSched] using hv
      · simpa [State.setSched, Function.update_of_ne hvt] using hv
      · subst hvt
        simp [State.setSched, hi.onRq_user hpc] at hv
      · simp [State.setSched, Function.update_of_ne hvt]
    · cases h
  | reuse t next prev =>
    simp only [Queue.step] at h
    split at h
    · cases h
    · next hframe =>
      cases h
      refine hi.still rfl rfl ?_ (fun _ h => h) (fun _ _ => rfl) rfl
      intro a ha
      have hat : ListHead.entry t ≠ a := fun h => hframe (ha t h.symm)
      have hnext := Links.store_same (k := s.links) (w := .next (.entry t) next) hat
      have hprev := Links.store_same (k := s.links.setNext (.entry t) next)
        (w := .prev (.entry t) prev) hat
      exact ⟨hprev.1.trans hnext.1, hprev.2.trans hnext.2⟩

/-- Every state of every schedule has its queue. -/
theorem Inv.run {xs : List Action} (h : Steps s xs s') (hi : Inv s l) : ∃ l', Inv s' l' := by
  refine h.invariant (fun s => ∃ l, Inv s l) ⟨l, hi⟩ ?_
  rintro s x s' ⟨l, hi⟩ _ hstep
  exact ⟨_, hi.step hstep⟩

theorem Inv.reachable {links : Links ListHead} {xs : List Action} (h : Steps (Queue.init links) xs s) :
    ∃ l, Inv s l := Inv.run h (Inv.init links)

end

end DoEvent.Queue
