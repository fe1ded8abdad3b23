import DoEvent.Linearization
import DoEvent.Locked.Atomicity
import DoEvent.X86.Refinement

/-!
# The calls on x86 as calls one at a time

The chain from the instructions of the lock to a sequential execution: the lock word
implements the lock, under the lock every section is atomic, and the sections of open, chown,
chmod, stat and info can be told as calls made one after the other. So can the history of any
interleaving of the instructions.
-/

namespace DoEvent

/-! ### Calls that do not get into each other's way -/

/-- Only root calls chown and chmod. -/
def Action.rootChanges : Action → Bool
  | .call _ c k => k.kind != .doeventchown && k.kind != .doeventchmod || c.euid == 0
  | _ => true

def keepsOwners (k : Kind) : Bool := sharesList k && k != .doeventchown

/-- The calls are opens, chowns, chmods, stats and infos, and either no owner changes or only
root changes events. -/
def Orderly (xs : List Action) : Prop :=
  (∀ x ∈ xs, x.callIn keepsOwners = true) ∨ ∀ x ∈ xs, x.callIn sharesList = true ∧ x.rootChanges = true

def Pc.changer : Pc → Option Cred
  | .chownRead c .. | .chownWrite c .. | .chmodRead c .. | .chmodWrite c .. => some c
  | _ => none

def RootChanges (s : State) : Prop := ∀ t c, (s.pc t).changer = some c → c.euid = 0

section
variable {s s' : State} {x : Action} {xs : List Action} {ok : State → Action → Prop}

open Transition

theorem Move.changer {e : Effect} {p : Pc} {c : Cred} (hm : Move s x e p)
    (hp : p.changer = some c) :
    (s.pc x.task).changer = some c ∨
      ∃ t k, x = .call t c k ∧ (k.kind = .doeventchown ∨ k.kind = .doeventchmod) := by
  cases hm with
  | call t c' k hpc =>
    refine .inr ⟨t, k, ?_⟩
    cases k with
    | doeventchown | doeventchmod =>
      simp only [entry] at hp
      split_ifs at hp <;> cases hp
      exact ⟨rfl, by simp [Call.kind]⟩
    | doeventopen | doeventstat => cases hp
    | _ =>
      simp only [entry] at hp
      split_ifs at hp <;> cases hp
  | nomem t c hpc => cases hp
  | kmalloc t c a hpc hfree => cases hp
  | posix t | deliver t hpc => exact .inl hp
  | run t e p hrq hnext =>
    have hf := Flow.of_next hnext
    simp only [Action.task]
    generalize hpc : s.pc t = q at hf
    cases hf <;> first | exact .inl hp | cases hp

theorem RootChanges.step (hi : RootChanges s) (hx : x.rootChanges = true)
    (h : DoEvent.step s x = some s') : RootChanges s' := by
  obtain ⟨e, p, hm, rfl⟩ := step_eq_some.mp h
  intro u c hc
  by_cases hu : u = x.task
  · subst hu
    rcases hm.changer (by simpa using hc) with hc | ⟨t, k, rfl, hk⟩
    · exact hi _ c hc
    · rcases hk with hk | hk <;> simpa [Action.rootChanges, hk] using hx
  · exact hi u c (by simpa [hu] using hc)

theorem callIn_sharesList (h : x.callIn keepsOwners = true) : x.callIn sharesList = true := by
  cases x with
  | call t c k => exact (Bool.and_eq_true_iff.mp h).1
  | _ => rfl

theorem Orderly.ownersApart (h : Orderly xs) (hidle : ∀ t, s.pc t = .user)
    (hrun : Run DoEvent.step ok s xs s') : Run DoEvent.step OwnersApart s xs s' := by
  rcases h with hkeep | hroot
  · have hstart : CallsIn keepsOwners s := fun t k hk => by
      rw [hidle t] at hk
      cases hk
    refine ((hrun.restrict _ hkeep).strengthen (CallsIn keepsOwners) hstart
      fun _ _ _ hi hx hst => hi.step hx.2 hst).mono fun s x hx => ⟨callIn_sharesList hx.1.2, ?_⟩
    intro t c a U G _ hpc
    have hchown := hx.2 t .doeventchown (by rw [hpc]; rfl)
    cases hchown
  · have hstart : RootChanges s := fun t c hc => by
      rw [hidle t] at hc
      cases hc
    refine ((hrun.restrict _ hroot).strengthen RootChanges hstart
      fun _ _ _ hi hx hst => hi.step hx.2.2 hst).mono fun s x hx => ⟨hx.1.2.1, ?_⟩
    intro t c a U G _ _ u c' _ hc'
    refine .inl (hx.2 u c' ?_)
    rcases hc' with ⟨U', G', hpc⟩ | ⟨uf, gf, hpc⟩ <;> rw [hpc] <;> rfl

theorem Orderly.callIn (h : Orderly xs) : ∀ x ∈ xs, x.callIn sharesList = true :=
  h.elim (fun hkeep x hx => callIn_sharesList (hkeep x hx)) fun hroot x hx => (hroot x hx).1

theorem Orderly.sublist {ys : List Action} (h : Orderly xs) (hys : ys.Sublist xs) : Orderly ys :=
  h.imp (fun hkeep x hx => hkeep x (hys.subset hx)) fun hroot x hx => hroot x (hys.subset hx)

/-- The calls of a run that begins and ends with every task in user mode. -/
theorem serial_of_run (hlist : ListInv s) (hown : LocalInv s) (hlisted : s.eventlist ≠ [])
    (hidle : ∀ t, s.pc t = .user) (hrun : Run DoEvent.step OwnersApart s xs s')
    (hdone : ∀ t, s'.pc t = .user) :
    ∃ q, Linearizable SerialCall s (observe DoEvent.step callEvents s xs) q ∧ q.mem = s'.mem ∧
      q.eventlist = s'.eventlist ∧ q.user = s'.user := by
  obtain ⟨st, q, hcommits, hend⟩ := hrun.commits callEvents Sim (sim_start hlist hown hlisted hidle)
    fun _ _ _ _ _ hi hx hst => hi.step hx hst
  refine ⟨q, hcommits.linearizable fun t => ?_, hend.mem, hend.eventlist, funext fun t => ?_⟩
  · have hstage := hend.stage t
    rw [hdone t] at hstage
    generalize st t = su at hstage
    cases hstage
    rfl
  · rw [hend.user t, hdone t]
    rfl

end

end DoEvent

namespace DoEvent.X86

open Shared Transition

/-! ### From the instructions to the sequential execution -/

/-- The state `c` in which sections are single steps stands for `s`, in which no task is in a
call. -/
structure AtRest (s : State) (c : DoEvent.State) : Prop where
  mem : c.mem = Locked.events s.node
  ring : (Locked.links s.node).Ring allevents c.eventlist
  user : c.user = s.user
  pc : ∀ t, c.pc t = .user

theorem AtRest.of_rel {s : State} {k : RwLock Task} {c : DoEvent.State} {l : List Addr}
    (h : Locked.Rel (s.withLock k) c l) (hidle : ∀ t, s.pc t = .user) : AtRest s c := by
  have hfree : ∀ t, ((s.withLock k).pc t).access ≠ .write := by
    intro t
    have hpc : (s.withLock k).pc t = .user := hidle t
    rw [hpc]
    decide
  obtain ⟨hmem, hring⟩ := h.at_rest hfree
  exact ⟨hmem, hring, h.user, fun t => h.in_user (hidle t)⟩

/-- The CPUs, and what the calls need for their sections to be atomic. -/
def CpusWithoutWaits (n : ℕ) (s : State) (x : Action) : Prop :=
  OnCpus n s x ∧ Locked.WithoutWaits (s.withLock (.shared [])) x

def SharedCalls (_ : Locked.State) (x : Action) : Prop := x.callIn sharesList = true

/-- The state that stands for a state at rest has a well-formed list with an event in it, and
the calls from there are calls made one after the other. -/
theorem serial_from_rest {node : Addr → Locked.Node} {user : Task → UserMem} {n : ℕ}
    (hn : n ≤ 129) {xs ys : List Action} {s m : State}
    (hxs : Run step (CpusWithoutWaits n) (doeventInit node user) xs s)
    (hidle : ∀ t, s.pc t = .user) (hlisted : (s.node allevents).next ≠ allevents)
    (hys : Run step (OnCpus n) s ys m) (horderly : Orderly ys) (hdone : ∀ t, m.pc t = .user) :
    ∃ c q, AtRest s c ∧ ListInv c ∧ LocalInv c ∧ c.eventlist ≠ [] ∧
      Linearizable SerialCall c (observe step callEvents s ys) q ∧
      q.mem = Locked.events m.node ∧ (Locked.links m.node).Ring allevents q.eventlist ∧
      q.user = m.user := by
  have hguard : ∀ s x, CpusWithoutWaits n s x →
      OnCpus n s x ∧ ∀ k, Locked.WithoutWaits (s.withLock k) x := fun s x hx => ⟨hx.1, fun _ => hx.2⟩
  obtain ⟨k, hlocked, _, htied⟩ := (Tied.init node user).run hn hguard hxs
  obtain ⟨c, hc, _, l, hrel⟩ := (Locked.Rel.init node user).run hlocked
  have hrest : AtRest s c := .of_rel hrel hidle
  have hne : c.eventlist ≠ [] := by
    intro hnil
    have hhead := hrest.ring.next_head
    rw [hnil] at hhead
    exact hlisted hhead
  have hlist := hc.invariant ListInv (doeventInit_listInv _ user) fun _ _ _ hi hx hst => hi.step hx hst
  -- The second run, from the states that now stand for each other.
  have hguard' : ∀ s x, OnCpus n s x ∧ x.callIn sharesList = true → OnCpus n s x ∧
      ∀ k : RwLock Task, SharedCalls (s.withLock k) x := fun s x hx => ⟨hx.1, fun _ => hx.2⟩
  obtain ⟨k', hlocked', hnotes, _⟩ := htied.run hn hguard' (hys.restrict _ horderly.callIn)
  have hstart : CallsIn sharesList c := fun t j hj => by
    rw [hrest.pc t] at hj
    cases hj
  obtain ⟨c', hc', hnotes', _, l', hrel'⟩ :=
    hrel.run_calls hstart rfl rfl (fun _ _ hx => hx) hlocked'
  have hrest' : AtRest m c' := .of_rel hrel' hdone
  have hsub : (observe Locked.step Locked.sectionSteps (s.withLock k)
      (observe step callSteps s ys)).Sublist ys :=
    (observe_kept_sublist ..).trans (observe_kept_sublist ..)
  obtain ⟨q, hlin, hmem, heventlist, huser⟩ := serial_of_run hlist (localInv_reachable hc) hne hrest.pc
    ((horderly.sublist hsub).ownersApart hrest.pc hc') hrest'.pc
  refine ⟨c, q, hrest, hlist, localInv_reachable hc, hne, ?_, hmem.trans hrest'.mem, heventlist ▸ hrest'.ring, huser.trans hrest'.user⟩
  rw [← hnotes, ← hnotes']
  exact hlin

/-- On at most 129 CPUs, from a state with an event in which nobody is in a call, in every
interleaving of the instructions of the lock with the loads and stores of opens, chowns,
chmods, stats and infos, after which everybody is back in user mode: if no owner changes, or
only root changes events, then the calls can be executed one after the other in an order that
respects real time, with the same values returned and left in user memory, and with the ring
and the records that are in memory at the end. -/
theorem calls_serial_on_x86 (node : Addr → Locked.Node) (user : Task → UserMem) (n : ℕ)
    (hn : n ≤ 129) (xs ys : List Action) (s m : State)
    (hxs : Run step (CpusWithoutWaits n) (doeventInit node user) xs s)
    (hidle : ∀ t, s.pc t = .user) (hlisted : (s.node allevents).next ≠ allevents)
    (hys : Run step (OnCpus n) s ys m) (horderly : Orderly ys) (hdone : ∀ t, m.pc t = .user) :
    ∃ c q, AtRest s c ∧ Linearizable SerialCall c (observe step callEvents s ys) q ∧
      q.mem = Locked.events m.node ∧ (Locked.links m.node).Ring allevents q.eventlist ∧
      q.user = m.user := by
  obtain ⟨c, q, hrest, _, _, _, hserial⟩ := serial_from_rest hn hxs hidle hlisted hys horderly hdone
  exact ⟨c, q, hrest, hserial⟩

/-! ### A fixed run -/

-- Task 1 asks for the lock while task 0 is linking its second event, spins, and lists two
-- events when it gets in.
def infoAfterOpen : List Action :=
  [.call 0 rootCred .doeventopen, .kmalloc 0 (some 2)] ++ runs 0 5 ++
    [.call 1 rootCred (.doeventinfo 0 none)] ++ runs 1 4 ++ runs 0 18 ++ runs 1 8

theorem State.idleFrom.cpusWithoutWaits {s : State} {x : Action} {j : Task} (hi : s.idleFrom j)
    (hx : x.task < j) (h : Locked.withoutWaitsTest j (s.withLock (.shared [])) x = true) :
    CpusWithoutWaits j s x := by
  have hi' : (s.withLock (.shared [])).idleFrom j := fun t ht => (hi t ht).1
  exact ⟨hi.onCpus hx, Locked.withoutWaits_of_test hi' h⟩

theorem State.idleFrom.all_user {s : State} {j : Task} (hi : s.idleFrom j)
    (h : ((List.range j).all fun t => s.pc t == .user) = true) (t : Task) : s.pc t = .user := by
  simp only [List.all_eq_true, List.mem_range, beq_iff_eq] at h
  by_cases ht : t < j
  · exact h t ht
  · exact (hi t (Nat.le_of_not_lt ht)).1

theorem infoAfterOpen_runs :
    ∃ s m, Run step (CpusWithoutWaits 8) boot Locked.openedRun s ∧ (∀ t, s.pc t = .user) ∧
      (s.node allevents).next ≠ allevents ∧ Run step (OnCpus 8) s infoAfterOpen m ∧
      ∀ t, m.pc t = .user := by
  have hsteps : ((steps step (fun s x => decide (x.task < 8) &&
      Locked.withoutWaitsTest 8 (s.withLock (.shared [])) x) boot Locked.openedRun).map fun s =>
        ((List.range 8).all fun t => s.pc t == .user) && (s.node allevents).next != allevents &&
        (steps step (fun _ x => decide (x.task < 8)) s infoAfterOpen).map (fun m =>
          (List.range 8).all fun t => m.pc t == .user) == some true) = some true := by
    decide +kernel
  obtain ⟨s, hs, ht⟩ := Option.map_eq_some_iff.mp hsteps
  simp only [Bool.and_eq_true, bne_iff_ne, beq_iff_eq] at ht
  obtain ⟨⟨hidle, hlisted⟩, hrest⟩ := ht
  obtain ⟨m, hm, hdone⟩ := Option.map_eq_some_iff.mp hrest
  have hxs : Run step (CpusWithoutWaits 8) boot Locked.openedRun s ∧ s.idleFrom 8 := by
    refine Run.of_steps_invariant _ (State.idleFrom · 8) hs (fun _ _ => ⟨rfl, rfl⟩) ?_ ?_ <;>
      simp only [Bool.and_eq_true, decide_eq_true_eq]
    · exact fun s x s' hi hx hst => hi.step hx.1 hst
    · exact fun s x hi hx => hi.cpusWithoutWaits hx.1 hx.2
  have hys : Run step (OnCpus 8) s infoAfterOpen m ∧ m.idleFrom 8 := by
    refine Run.of_steps_invariant _ (State.idleFrom · 8) hm hxs.2 ?_ ?_
    · exact fun s x s' hi hx hst => hi.step (of_decide_eq_true hx) hst
    · exact fun s x hi hx => hi.onCpus (of_decide_eq_true hx)
  exact ⟨s, m, hxs.1, hxs.2.all_user hidle, hlisted, hys.1, hys.2.all_user hdone⟩

theorem calls_serial_on_x86_contended :
    ∃ s m c q, Run step (CpusWithoutWaits 8) boot Locked.openedRun s ∧
      Run step (OnCpus 8) s infoAfterOpen m ∧ AtRest s c ∧
      Linearizable SerialCall c (observe step callEvents s infoAfterOpen) q ∧
      (Locked.links m.node).Ring allevents q.eventlist := by
  obtain ⟨s, m, hxs, hidle, hlisted, hys, hdone⟩ := infoAfterOpen_runs
  obtain ⟨c, q, hc, hlin, _, hring, _⟩ := calls_serial_on_x86 _ _ 8 (by decide) Locked.openedRun
    infoAfterOpen s m hxs hidle hlisted hys (.inl (by decide)) hdone
  exact ⟨s, m, c, q, hxs, hys, hc, hlin, hring⟩

end DoEvent.X86
