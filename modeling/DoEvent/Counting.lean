import DoEvent.Closing
import DoEvent.History
import DoEvent.Wakeups

/-!
# Every release is counted once

A sig reports the length of the queue at its counting loop, but what releases a waiter is
the condition, which any wait sees that has passed its own `condition := 0`. The two agree
as long as every counting loop meets the waiters either all on the queue and unreleased, or
all released and off the queue, and as long as no new wait clears the condition under
waiters that have been released. Then every wait that returns 1 has been counted once.
-/

namespace DoEvent

open Transition

/-- The counting loops: the signaller, and a task on the queue it counts. -/
def counts (s : State) : Action → List (Task × Task)
  | .run g =>
    match s.pc g with
    | .sigWrite a => (s.mem a).queue.map (g, ·)
    | _ => []
  | _ => []

/-- The value that a sig adds to the number of tasks signalled; -1 adds nothing. -/
def signalValue (k : Call) (r : Int) : ℕ := if k.kind = .doeventsig then r.toNat else 0

/-- A wait that returns 1. -/
def releaseValue (k : Call) (r : Int) : ℕ := if k.kind = .doeventwait ∧ r = 1 then 1 else 0

/-- The queue of `a` holds the tasks in the wait loop, none of which is released; or it is
empty, and whoever is in the loop is released. -/
def CleanQueue (s : State) (a : Addr) : Prop :=
  ((s.mem a).condition = 0 ∧ ∀ t, t ∈ (s.mem a).queue ↔ (s.pc t).loops = some a) ∨
    ((s.mem a).condition ≠ 0 ∧ (s.mem a).queue = [])

structure CountsApart (s : State) (x : Action) : Prop where
  clean : ∀ g a, x = .run g → s.pc g = .sigWrite a → CleanQueue s a
  resets : ∀ u a, x = .run u → s.pc u = .waitReset a →
    (s.mem a).condition = 0 ∨ ∀ t, (s.pc t).loops ≠ some a

def CountingStep (s : State) (x : Action) : Prop := SignalCalls s x ∧ CountsApart s x

/-! ### What has been counted and not yet returned -/

/-- What a sig has counted, between its counting loop and its return statement. -/
def Pc.wakeCount : Pc → ℕ
  | .sigWake _ n => n
  | _ => 0

/-- 1 for a wait that has been released and not yet come to its return statement. -/
def releaseDue (mem : Addr → Event) (p : Pc) : ℕ :=
  match p with
  | .waitFinish _ => 1
  | p => match p.loops with
    | some a => if (mem a).condition = 0 then 0 else 1
    | none => 0

structure Ledger (h : CallHistory) (l : List (Task × Task)) (s : State) : Prop where
  inv : OpenInv s
  unsignalled : ∀ t, (s.sched t).sigPending = false
  follows : Follows h s
  counting : ∀ g, (l.map Prod.fst).count g = settled signalValue h s g + (s.pc g).wakeCount
  counted : ∀ t, (l.map Prod.snd).count t = settled releaseValue h s t + releaseDue s.mem (s.pc t)

section
variable {h : CallHistory} {l : List (Task × Task)} {s : State} {x : Action} {e : Effect} {p : Pc}

theorem wakeCount_entry (c : Cred) (k : Call) : (entry c k).wakeCount = 0 := by
  cases k <;> simp only [entry] <;> (try split) <;> rfl

theorem releaseDue_entry (mem : Addr → Event) (c : Cred) (k : Call) :
    releaseDue mem (entry c k) = 0 := by
  cases k <;> simp only [entry] <;> (try split) <;> rfl

/-- A call refused at its entry is worth nothing. -/
theorem decidedValue_entry {v : Call → Int → ℕ} (hv : ∀ k, v k (-1) = 0) (a : Option (Cred × Call))
    (c : Cred) (k : Call) : decidedValue v a (entry c k) = 0 := by
  have hfail : decidedValue v a (.ret (-1)) = 0 := by cases a <;> simp [decidedValue, hv]
  cases k <;> simp only [entry] <;> (try split) <;> first | exact hfail | rfl

theorem counts_fst (g : Task) (hg : g ≠ x.task) : ((counts s x).map Prod.fst).count g = 0 := by
  refine List.count_eq_zero.mpr fun hmem => ?_
  unfold counts at hmem
  split at hmem
  · split at hmem
    · simp only [List.map_map, List.mem_map, Function.comp_apply] at hmem
      obtain ⟨u, _, rfl⟩ := hmem
      exact hg rfl
    · cases hmem
  · cases hmem

/-- The signaller's own step: what it counts is what it will return. -/
theorem counting_self (hd : Follows h s) (hm : Move s x e p) (hr : ∀ r, s.pc x.task ≠ .ret r) :
    ((counts s x).map Prod.fst).count x.task + (s.pc x.task).wakeCount =
      decidedValue signalValue (pendingCall (h ++ callEvents s x) x.task) p + p.wakeCount := by
  have hk := fun q => hd.acting hm (q := q)
  cases hm with
  | call t c k hpc =>
    rw [wakeCount_entry, decidedValue_entry (by simp [signalValue])]
    simp [counts, Action.task, hpc, Pc.wakeCount]
  | nomem t c hpc =>
    obtain ⟨a, ha, _⟩ := hk _ (by rw [Action.task, hpc]; rfl)
    rw [ha]
    simp [counts, Action.task, hpc, Pc.wakeCount, decidedValue, signalValue]
  | kmalloc t c a hpc hfree => simp [counts, Action.task, hpc, Pc.wakeCount, decidedValue]
  | posix t | deliver t hpc =>
    have hzero : ∀ a, decidedValue signalValue a (s.pc t) = 0 := fun a => by
      cases hq : s.pc t with
      | ret r => exact absurd hq (hr r)
      | _ => rfl
    simp [counts, Action.task, hzero]
  | run t e p hrq hnext =>
    have hf := Flow.of_next hnext
    simp only [Action.task] at hk hr ⊢
    generalize pendingCall (h ++ callEvents s (.run t)) t = a' at hk ⊢
    simp only [counts]
    generalize hpc : s.pc t = q at hf hk hr ⊢
    cases hf with
    | ret r => exact absurd rfl (hr r)
    | sigWrite a =>
      simp [Pc.wakeCount, decidedValue, countTasks_eq, Function.comp_def, List.map_const']
    | sigWake a n =>
      obtain ⟨a', rfl, ha'⟩ := hk _ rfl
      simp [Pc.wakeCount, decidedValue, signalValue, ha']
    | _ =>
      obtain ⟨a', rfl, ha'⟩ := hk _ rfl
      simp [Pc.wakeCount, decidedValue, signalValue, ha']

theorem counts_of_ne (hx : ∀ g a, x = .run g → s.pc g ≠ .sigWrite a) : counts s x = [] := by
  unfold counts
  split
  next g =>
    split
    next a hpc => exact absurd hpc (hx g a rfl)
    · rfl
  · rfl

theorem counts_snd {g : Task} {a : Addr} (hpc : s.pc g = .sigWrite a) (hi : QueueInv s) (t : Task) :
    ((counts s (.run g)).map Prod.snd).count t = if t ∈ (s.mem a).queue then 1 else 0 := by
  have hn := hi.entries.nodup a (hi.signalling g a (holds_of_pc hpc rfl))
  have hmap : (counts s (.run g)).map Prod.snd = (s.mem a).queue := by
    simp [counts, hpc, Function.comp_def]
  rw [hmap, hn.count]

/-- A task on the queue of a live event is in the wait loop, or about to leave its queue. -/
theorem QueueInv.queued (hi : QueueInv s) {t : Task} {a : Addr} (ha : a ∈ s.eventlist)
    (ht : t ∈ (s.mem a).queue) : (s.pc t).loops = some a ∨ s.pc t = .waitFinish a := by
  obtain ⟨hw, hl⟩ := hi.entries.queued t a ha ht
  rcases (hi.own t).pastReset hw hl with h | h | ⟨r, h⟩ | h
  · exact .inl h
  · exact .inr h
  · rw [State.holds, h] at hw
    cases hw
  · rw [State.holds, h] at hw
    cases hw

/-- A waiter's own step: it is released when it comes to its return statement, and it comes
there only when it is released. -/
theorem counted_self (hl : Ledger h l s) (hm : Move s x e p) (hr : ∀ r, s.pc x.task ≠ .ret r) :
    ((counts s x).map Prod.snd).count x.task + releaseDue s.mem (s.pc x.task) =
      decidedValue releaseValue (pendingCall (h ++ callEvents s x) x.task) p +
        releaseDue (apply s x.task e).mem p := by
  have hk := fun q => hl.follows.acting hm (q := q)
  have hcount : ((counts s x).map Prod.snd).count x.task = 0 := by
    by_cases hx : ∃ g a, x = .run g ∧ s.pc g = .sigWrite a
    · obtain ⟨g, a, rfl, hpc⟩ := hx
      rw [counts_snd hpc hl.inv.queue, if_neg]
      intro hmem
      have ha := hl.inv.queue.signalling g a (holds_of_pc hpc rfl)
      rcases hl.inv.queue.queued ha hmem with h | h <;> rw [Action.task, hpc] at h <;> cases h
    · rw [counts_of_ne fun g a hg hpc => hx ⟨g, a, hg, hpc⟩]
      rfl
  rw [hcount, Nat.zero_add]
  cases hm with
  | call t c k hpc =>
    rw [releaseDue_entry, decidedValue_entry (by simp [releaseValue]), Action.task, hpc]
    rfl
  | nomem t c hpc =>
    obtain ⟨a, ha, _⟩ := hk _ (by rw [Action.task, hpc]; rfl)
    rw [ha]
    simp [Action.task, hpc, decidedValue, releaseValue, releaseDue, Pc.loops]
  | kmalloc t c a hpc hfree => simp [Action.task, hpc, decidedValue, releaseDue, Pc.loops]
  | posix t | deliver t hpc =>
    have hzero : ∀ a, decidedValue releaseValue a (s.pc t) = 0 := fun a => by
      cases hq : s.pc t with
      | ret r => exact absurd hq (hr r)
      | _ => rfl
    simp only [Action.task, hzero, Nat.zero_add]
    rfl
  | run t e p hrq hnext =>
    have hf := Flow.of_next hnext
    have hsig := hl.unsignalled t
    simp only [Action.task] at hk hr ⊢
    generalize pendingCall (h ++ callEvents s (.run t)) t = a' at hk ⊢
    generalize hpc : s.pc t = q at hf hk hr ⊢
    cases hf with
    | ret r => exact absurd rfl (hr r)
    | waitSignalled a h =>
      rw [hsig] at h
      cases h
    | waitPast a h | waitLeave a h | waitEnter a h | waitCommit a h =>
      obtain ⟨a', rfl, ha'⟩ := hk _ rfl
      have hmem : (apply s t .skip).mem = s.mem := rfl
      simp [releaseDue, Pc.loops, decidedValue, releaseValue, ha', hmem, h]
    | _ =>
      obtain ⟨a', rfl, ha'⟩ := hk _ rfl
      simp [releaseDue, Pc.loops, decidedValue, releaseValue, ha', apply_condition]

/-- Nobody but a sig touches the condition of an event with tasks in its wait loop. -/
theorem condition_kept (hi : OpenInv s) (hx : CountsApart s x) (hm : Move s x e p) {t : Task}
    {a : Addr} (ht : (s.pc t).loops = some a) (hsig : ∀ g, x = .run g → s.pc g ≠ .sigWrite a) :
    ((apply s x.task e).mem a).condition = (s.mem a).condition := by
  have ho := hm.origin
  have ha := hi.queue.waiting t a (hold_of_loops ht)
  rw [apply_condition]
  cases e with
  | openSection c b =>
    have hab : a ≠ b := by
      rintro rfl
      exact (hi.queue.list.owned x.task a (.inl (holds_of_pc ho.1 rfl))).2.1 ha
    simp [hab]
  | closeSection b process => exact absurd hm.unlinks (noUnlink_of_callsIn hi.calls x b)
  | setCondition b v =>
    by_cases hab : a = b
    · subst hab
      cases hm with
      | run g e p hrq hnext =>
        rcases ho with ⟨rfl, hpc, _⟩ | ⟨_, hpc, _⟩
        · rcases hx.resets g a rfl hpc with h0 | hnone
          · simp [h0]
          · exact absurd ht (hnone t)
        · exact absurd hpc (hsig g rfl)
    · simp [hab]
  | _ => rfl

theorem releaseDue_loops (mem : Addr → Event) {q : Pc} {a : Addr} (hq : q.loops = some a) :
    releaseDue mem q = if (mem a).condition = 0 then 0 else 1 := by
  cases q <;> first | (cases hq; done) | (cases hq; rfl)

theorem releaseDue_outside (mem mem' : Addr → Event) {q : Pc} (hq : q.loops = none) :
    releaseDue mem q = releaseDue mem' q := by
  cases q <;> first | rfl | cases hq

/-- The step of another task releases `t` exactly when it counts it. -/
theorem counted_other (hl : Ledger h l s) (hx : CountsApart s x) (hm : Move s x e p) (t : Task) :
    ((counts s x).map Prod.snd).count t + releaseDue s.mem (s.pc t) =
      releaseDue (apply s x.task e).mem (s.pc t) := by
  by_cases hsig : ∃ g a, x = .run g ∧ s.pc g = .sigWrite a
  · obtain ⟨g, a, rfl, hpc⟩ := hsig
    have ha := hl.inv.queue.signalling g a (holds_of_pc hpc rfl)
    have he : e = .setCondition a 1 := by
      cases hm with
      | run g e p hrq hnext =>
        rw [hpc] at hnext
        cases hnext
        rfl
    subst he
    have hclean := hx.clean g a rfl hpc
    rw [counts_snd hpc hl.inv.queue]
    cases hloops : (s.pc t).loops with
    | none =>
      -- Outside the loop: not on the queue either, since the queue holds the loop or nobody.
      have hout : t ∉ (s.mem a).queue := by
        rcases hclean with ⟨_, hq⟩ | ⟨_, hq⟩
        · rw [hq t, hloops]
          simp
        · simp [hq]
      rw [if_neg hout, Nat.zero_add]
      exact releaseDue_outside _ _ hloops
    | some b =>
      rw [releaseDue_loops _ hloops, releaseDue_loops _ hloops, apply_condition]
      by_cases hab : b = a
      · subst hab
        rcases hclean with ⟨hc, hq⟩ | ⟨hc, hq⟩
        · simp [(hq t).mpr hloops, hc]
        · simp [hq, hc]
      · have hout : t ∉ (s.mem a).queue := fun hmem =>
          hab (holds_unique (hold_of_loops hloops) (hl.inv.queue.entries.queued t a ha hmem).1).2
        simp [hout, hab]
  · have hne : ∀ g a, x = .run g → s.pc g ≠ .sigWrite a := fun g a hg hpc => hsig ⟨g, a, hg, hpc⟩
    rw [counts_of_ne hne, List.map_nil, List.count_nil, Nat.zero_add]
    cases hloops : (s.pc t).loops with
    | none => exact releaseDue_outside _ _ hloops
    | some a =>
      rw [releaseDue_loops _ hloops, releaseDue_loops _ hloops,
        condition_kept hl.inv hx hm hloops fun g => hne g a]

/-- A task at its return statement counts nobody and is counted by nobody any more. -/
theorem ret_step {r : Int} (hm : Move s x e p) (hr : s.pc x.task = .ret r) :
    counts s x = [] ∧ p.wakeCount = 0 ∧ ∀ mem, releaseDue mem p = 0 := by
  refine ⟨counts_of_ne ?_, ?_⟩
  · rintro g a rfl hpc
    rw [Action.task, hpc] at hr
    cases hr
  · rcases callEvents_cases hm with ⟨c, k, _, hu, _⟩ | ⟨r', _, _, rfl⟩ | ⟨_, rfl⟩ | ⟨_, hk, _⟩
    · rw [hr] at hu
      cases hu
    · exact ⟨rfl, fun _ => rfl⟩
    · rw [hr]
      exact ⟨rfl, fun _ => rfl⟩
    · rw [hr] at hk
      exact absurd rfl hk

theorem Ledger.step {s' : State} (hl : Ledger h l s) (hx : CountingStep s x)
    (hst : step s x = some s') : Ledger (h ++ callEvents s x) (l ++ counts s x) s' := by
  have hinv := hl.inv.step hx.1.noClose hst
  obtain ⟨e, p, hm, rfl⟩ := step_eq_some.mp hst
  refine ⟨hinv, fun t => hm.unsignalled hx.1.2 (hl.unsignalled t), hl.follows.move hm, ?_, ?_⟩
  · intro g
    rw [List.map_append, List.count_append, hl.counting g]
    by_cases hg : g = x.task
    · subst hg
      have hpc : ((apply s x.task e).goto x.task p).pc x.task = p := by simp
      rw [hpc]
      by_cases hr : ∃ r, s.pc x.task = .ret r
      · obtain ⟨r, hr⟩ := hr
        obtain ⟨hnone, hp, _⟩ := ret_step hm hr
        rw [settled_of_ret hl.follows hm hr, hr, hnone, hp]
        rfl
      · have hself := counting_self hl.follows hm fun r h => hr ⟨r, h⟩
        rw [settled_self hm fun r h => hr ⟨r, h⟩]
        omega
    · have hpc : ((apply s x.task e).goto x.task p).pc g = s.pc g := by simp [hg]
      rw [settled_of_ne hl.follows hm hg, hpc, counts_fst g hg, Nat.add_zero]
  · intro t
    rw [List.map_append, List.count_append, hl.counted t, goto_mem]
    by_cases ht : t = x.task
    · subst ht
      have hpc : ((apply s x.task e).goto x.task p).pc x.task = p := by simp
      rw [hpc]
      by_cases hr : ∃ r, s.pc x.task = .ret r
      · obtain ⟨r, hr⟩ := hr
        obtain ⟨hnone, _, hp⟩ := ret_step hm hr
        rw [settled_of_ret hl.follows hm hr, hr, hnone, hp]
        rfl
      · have hself := counted_self hl hm fun r h => hr ⟨r, h⟩
        rw [settled_self hm fun r h => hr ⟨r, h⟩]
        omega
    · have hpc : ((apply s x.task e).goto x.task p).pc t = s.pc t := by simp [ht]
      have hother := counted_other hl hx.2 hm t
      rw [settled_of_ne hl.follows hm ht, hpc]
      omega

end

theorem doeventInit_ledger (mem : Addr → Event) (user : Task → UserMem) :
    Ledger [] [] (doeventInit mem user) where
  inv := doeventInit_openInv mem user
  unsignalled := fun _ => rfl
  follows := fun _ => rfl
  counting := fun _ => rfl
  counted := fun _ => rfl

theorem ledger_run {h : CallHistory} {l : List (Task × Task)} {s s' : State} {xs : List Action}
    (hrun : Run step CountingStep s xs s') (hl : Ledger h l s) :
    Ledger (h ++ observe step callEvents s xs) (l ++ observe step counts s xs) s' :=
  hrun.observed_two callEvents counts Ledger _ hl fun _ _ _ _ _ hi hx hst => hi.step hx hst

/-- Every release is counted once: a wait that comes to return 1 has been on the queue at
exactly one counting loop since it was called, and when no call is under way the values
returned by the signals add up to the number of waits that returned 1. -/
theorem releases_counted_once (mem : Addr → Event) (user : Task → UserMem) (xs : List Action)
    (s : State) (hrun : Run step CountingStep (doeventInit mem user) xs s) :
    (∀ t c i s₁ ys n, step s (.call t c (.doeventwait i)) = some s₁ → Run step CountingStep s₁ ys n →
      (∀ c k, .call t c k ∉ ys) → n.pc t = .ret 1 →
      ((observe step counts s₁ ys).map Prod.snd).count t = 1) ∧
    ((∀ t, s.pc t = .user) →
      totalValue signalValue (observe step callEvents (doeventInit mem user) xs) =
        totalValue releaseValue (observe step callEvents (doeventInit mem user) xs)) := by
  have hl := ledger_run hrun (doeventInit_ledger mem user)
  rw [List.nil_append, List.nil_append] at hl
  generalize observe step callEvents (doeventInit mem user) xs = h at hl ⊢
  generalize observe step counts (doeventInit mem user) xs = l at hl
  constructor
  · intro t c i s₁ ys n hcall hys hcalls hpc
    have huser : s.pc t = .user := by
      obtain ⟨e, p, hm, _⟩ := step_eq_some.mp hcall
      cases hm with
      | call t c k hpc => exact hpc
    have hok : CountingStep s (.call t c (.doeventwait i)) :=
      ⟨⟨rfl, rfl⟩, ⟨fun _ _ hx => (by cases hx), fun _ _ hx => (by cases hx)⟩⟩
    have hl₁ : Ledger (h ++ [.invoke t (c, .doeventwait i)]) l s₁ := by
      simpa [callEvents, counts] using hl.step hok hcall
    have hpend : pendingCall (h ++ [.invoke t (c, .doeventwait i)]) t = some (c, .doeventwait i) := by
      rw [pendingCall_invoke, Function.update_self]
    obtain ⟨hkept, hshares⟩ := call_kept (f := returnedValue releaseValue)
      (hys.mono fun _ _ _ => trivial) hcalls hl₁.follows hpend (by rw [hpc]; simp)
    -- The balance of `t` when it calls, and when it is about to return 1.
    have hbefore := hl.counted t
    have hafter := (ledger_run hys hl₁).counted t
    rw [settled_idle huser, huser] at hbefore
    rw [settled, hpc, hkept, hshares, operations_invoke] at hafter
    rw [List.map_append, List.count_append, hbefore] at hafter
    simp only [releaseDue, Pc.loops, decidedValue, releaseValue, Option.elim_some, Call.kind,
      and_self, if_true] at hafter
    omega
  · intro hidle
    have hsig : (l.map Prod.fst).Perm (shares (returnedValue signalValue) (operations h)) := by
      refine List.perm_iff_count.mpr fun g => ?_
      rw [hl.counting g, settled_idle (hidle g), hidle g]
      rfl
    have hrel : (l.map Prod.snd).Perm (shares (returnedValue releaseValue) (operations h)) := by
      refine List.perm_iff_count.mpr fun t => ?_
      rw [hl.counted t, settled_idle (hidle t), hidle t]
      rfl
    have hlen := hsig.length_eq.symm.trans ((List.length_map ..).trans
      ((List.length_map ..).symm.trans hrel.length_eq))
    rwa [length_shares, length_shares] at hlen

def countingTest (k : Task) (s : State) (x : Action) : Bool :=
  decide (SignalCalls s x) && match s.pc x.task with
    | .sigWrite a =>
      (decide ((s.mem a).condition = 0) &&
        (s.mem a).queue.all (fun t => decide ((s.pc t).loops = some a)) &&
        (List.range k).all fun t => decide ((s.pc t).loops = some a → t ∈ (s.mem a).queue)) ||
      decide ((s.mem a).condition ≠ 0 ∧ (s.mem a).queue = [])
    | .waitReset a => decide ((s.mem a).condition = 0) ||
      (List.range k).all fun t => decide ((s.pc t).loops ≠ some a)
    | _ => true

theorem countingStep_of_test {k : Task} {s : State} {x : Action} (hi : s.idleFrom k)
    (h : countingTest k s x = true) : CountingStep s x := by
  obtain ⟨hcalls, htest⟩ := Bool.and_eq_true_iff.mp h
  refine ⟨of_decide_eq_true hcalls, ⟨?_, ?_⟩⟩
  · rintro g a rfl hpc
    simp only [Action.task, hpc, Bool.or_eq_true, Bool.and_eq_true, decide_eq_true_eq] at htest
    refine htest.imp_left fun hzero => ⟨hzero.1.1, fun t => ⟨fun ht => ?_, fun ht => ?_⟩⟩
    · exact of_decide_eq_true (List.all_eq_true.mp hzero.1.2 t ht)
    · rcases hi.test hzero.2 t with huser | hin
      · rw [huser] at ht
        cases ht
      · exact of_decide_eq_true hin ht
  · rintro u a rfl hpc
    simp only [Action.task, hpc, Bool.or_eq_true, decide_eq_true_eq] at htest
    refine htest.imp_right fun hnone t ht => ?_
    rcases hi.test hnone t with huser | hin
    · rw [huser] at ht
      cases ht
    · exact of_decide_eq_true hin ht

/-- Task 1 sleeps on event 0, task 0 signals, task 1 returns. -/
def countedRun : List Action :=
  opens 0 rootCred 1 ++ [.call 1 rootCred (.doeventwait 0)] ++ runs 1 7 ++
    [.call 0 rootCred (.doeventsig 0)] ++ runs 0 5 ++ runs 1 5

theorem releases_counted_once_signal :
    ∃ s, Run step CountingStep boot countedRun s ∧ (∀ t, s.pc t = .user) ∧
      totalValue releaseValue (observe step callEvents boot countedRun) = 1 ∧
      totalValue signalValue (observe step callEvents boot countedRun) = 1 := by
  obtain ⟨s, hr, hi, ht⟩ := run_of_idle_test CountingStep countedRun 2 (countingTest 2)
    (fun s => (List.range 2).all fun t => s.pc t == .user) (by decide) (boot_idleFrom 2)
    fun _ _ => countingStep_of_test
  have hone : totalValue releaseValue (observe step callEvents boot countedRun) = 1 := by decide
  have hidle := allUser_of_test hi ht
  exact ⟨s, hr, hidle, hone,
    ((releases_counted_once bootMem bootUser countedRun s hr).2 hidle).trans hone⟩

/-- Task 2 has cleared the condition and not yet tested it when the signal sets it. -/
def uncountedRun : List Action :=
  opens 0 rootCred 1 ++ [.call 1 rootCred (.doeventwait 0)] ++ runs 1 7 ++
    [.call 2 rootCred (.doeventwait 0)] ++ runs 2 2 ++ [.call 0 rootCred (.doeventsig 0)] ++ runs 0 5 ++
    runs 2 2 ++ runs 1 5

theorem release_not_counted :
    ¬ ∀ mem user xs s, Run step SignalCalls (doeventInit mem user) xs s → (∀ t, s.pc t = .user) →
      totalValue signalValue (observe step callEvents (doeventInit mem user) xs) =
        totalValue releaseValue (observe step callEvents (doeventInit mem user) xs) := by
  intro hclaim
  obtain ⟨s, hr, hi, ht⟩ := run_of_idle_test SignalCalls uncountedRun 3
    (fun s x => decide (SignalCalls s x)) (fun s => (List.range 3).all fun t => s.pc t == .user)
    (by decide) (boot_idleFrom 3) fun _ _ _ h => of_decide_eq_true h
  have hsum := hclaim bootMem bootUser uncountedRun s hr (allUser_of_test hi ht)
  have htwo : totalValue releaseValue (observe step callEvents boot uncountedRun) = 2 := by decide
  have hone : totalValue signalValue (observe step callEvents boot uncountedRun) = 1 := by decide
  exact absurd (hone.symm.trans (hsum.trans htwo)) (by decide)

end DoEvent
