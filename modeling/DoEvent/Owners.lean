import DoEvent.Queries
import DoEvent.Transition.Linear
import Mathlib.Data.List.Induction

/-!
# Stat reports the last successful writer

A run of calls one at a time, seen through the values that the calls return: which open
installed an event, and which chown and chmod of its id returned 0 since then. Replaying
these calls gives the owner and the flags of every live event, and stat copies them out.
-/

namespace DoEvent

open Transition

/-! ### The calls of a run and what they return -/

abbrev OutcomeHistory := List (HistoryEvent Task (Cred × Call) Int)

/-- A call that has been made and has come to its return statement. -/
abbrev Performed := Operation Task (Cred × Call) Int

/-- The task comes to a return statement. -/
def decides (q p : Pc) : Option Int :=
  match p with
  | .ret r => if q = p then none else some r
  | _ => none

def entered : Action → OutcomeHistory
  | .call t c k => [.invoke t (c, k)]
  | _ => []

/-- The events of the history: a task enters a call, and a call comes to its return
statement with a value. Nothing happens in a call after that. -/
def outcomeEvents (s : State) (x : Action) : OutcomeHistory :=
  entered x ++ ((step s x).bind fun s' => decides (s.pc x.task) (s'.pc x.task)).elim []
    fun r => [.respond x.task r]

/-- The call that task `t` is in, before its return statement. -/
def underway (h : OutcomeHistory) (t : Task) : Option (Cred × Call) := (pending h t).map Prod.fst

theorem outcomeEvents_of_move {s : State} {x : Action} {e : Effect} {p : Pc} (hm : Move s x e p) :
    outcomeEvents s x = entered x ++ (decides (s.pc x.task) p).elim [] fun r => [.respond x.task r] := by
  rw [outcomeEvents, step_eq_some.mpr ⟨e, p, hm, rfl⟩, Option.bind_some, goto_pc, Function.update_self]

section
variable {h : OutcomeHistory} {t u : Task}

theorem underway_invoke {a : Cred × Call} :
    underway (h ++ [.invoke t a]) u = if u = t then some a else underway h u := by
  by_cases hu : u = t <;> simp [underway, pending_invoke, hu]

theorem underway_respond {r : Int} :
    underway (h ++ [.respond t r]) u = if u = t then none else underway h u := by
  by_cases hu : u = t <;> simp [underway, pending_respond, hu]

theorem underway_entered (x : Action) :
    underway (h ++ entered x) u =
      match x with
      | .call t c k => if u = t then some (c, k) else underway h u
      | _ => underway h u := by
  cases x with
  | call t c k => exact underway_invoke
  | _ => simp [entered]

theorem operations_entered (x : Action) : operations (h ++ entered x) = operations h := by
  cases x with
  | call t c k => exact operations_invoke
  | _ => simp [entered]

/-- A call that comes to its return statement is added to the operations. -/
theorem operations_decided {a : Cred × Call} {r : Int} (ha : underway h t = some a) :
    ∃ j n, operations (h ++ [.respond t r]) = operations h ++ [⟨t, a, r, j, n⟩] := by
  obtain ⟨⟨a', j⟩, hp, rfl⟩ := Option.map_eq_some_iff.mp ha
  exact ⟨j, _, operations_respond hp⟩

end

/-! ### Replaying the calls that write owner and flags -/

/-- What a call with the value `r` does to the owner and the flags of the event with id `i`. -/
def written (i : Int32) (a : Cred × Call) (r : Int) (v : Option StatVals) : Option StatVals :=
  match a.2 with
  | .doeventopen => if r = i.toInt then some ⟨a.1.euid, a.1.egid, 1, 1⟩ else v
  | .doeventchown j UID GID _ =>
    if j = i ∧ r = 0 then v.map fun w => { w with uid := UID, gid := GID } else v
  | .doeventchmod j UIDFlag GIDFlag _ =>
    if j = i ∧ r = 0 then v.map fun w => { w with uidFlag := UIDFlag, gidFlag := GIDFlag } else v
  | _ => v

def replay (i : Int32) (ops : List Performed) : Option StatVals :=
  ops.foldl (fun v o => written i o.input o.output v) none

theorem replay_append (i : Int32) (ops : List Performed)
    (o : Performed) :
    replay i (ops ++ [o]) = written i o.input o.output (replay i ops) := by
  rw [replay, List.foldl_append]
  rfl

/-- The call is an open that returned `i`. -/
def OpensAs (i : Int32) (o : Performed) : Prop :=
  o.input.2 = .doeventopen ∧ o.output = i.toInt

/-- The owner and group given by a chown of `i` that returned 0. -/
def chownOf (i : Int32) (o : Performed) : Option (UInt32 × UInt32) :=
  match o.input.2 with
  | .doeventchown j UID GID _ => if j = i ∧ o.output = 0 then some (UID, GID) else none
  | _ => none

/-- The flags given by a chmod of `i` that returned 0. -/
def chmodOf (i : Int32) (o : Performed) : Option (Int32 × Int32) :=
  match o.input.2 with
  | .doeventchmod j UIDFlag GIDFlag _ => if j = i ∧ o.output = 0 then some (UIDFlag, GIDFlag) else none
  | _ => none

/-- Owner and flags after the calls `after`, for an event opened by a caller `c`. -/
def writtenSince (i : Int32) (c : Cred) (after : List Performed) : StatVals :=
  let owner := (after.filterMap (chownOf i)).getLast?.getD (c.euid, c.egid)
  let flags := (after.filterMap (chmodOf i)).getLast?.getD (1, 1)
  ⟨owner.1, owner.2, flags.1, flags.2⟩

/-- The last open that returned `i` is `o`, and `after` are the calls since then. -/
structure InstalledBy (i : Int32) (ops : List Performed)
    (o : Performed) (after : List Performed) : Prop where
  split : ∃ before, ops = before ++ o :: after
  opens : OpensAs i o
  last : ∀ o' ∈ after, ¬ OpensAs i o'

section
variable {i : Int32} {c : Cred} {after : List Performed} {o : Performed}

theorem writtenSince_other (hown : chownOf i o = none) (hmod : chmodOf i o = none) :
    writtenSince i c (after ++ [o]) = writtenSince i c after := by
  rw [writtenSince, writtenSince, List.filterMap_append, List.filterMap_append,
    List.filterMap_cons_none hown, List.filterMap_cons_none hmod, List.filterMap_nil,
    List.filterMap_nil, List.append_nil, List.append_nil]

theorem writtenSince_chown {g : UInt32 × UInt32} (hown : chownOf i o = some g)
    (hmod : chmodOf i o = none) : writtenSince i c (after ++ [o]) =
      { writtenSince i c after with uid := g.1, gid := g.2 } := by
  rw [writtenSince, writtenSince, List.filterMap_append, List.filterMap_append,
    List.filterMap_cons_some hown, List.filterMap_cons_none hmod, List.filterMap_nil,
    List.filterMap_nil, List.append_nil, List.getLast?_concat, Option.getD_some]

theorem writtenSince_chmod {f : Int32 × Int32} (hown : chownOf i o = none)
    (hmod : chmodOf i o = some f) : writtenSince i c (after ++ [o]) =
      { writtenSince i c after with uidFlag := f.1, gidFlag := f.2 } := by
  rw [writtenSince, writtenSince, List.filterMap_append, List.filterMap_append,
    List.filterMap_cons_none hown, List.filterMap_cons_some hmod, List.filterMap_nil,
    List.filterMap_nil, List.append_nil, List.getLast?_concat, Option.getD_some]

theorem written_since (h : ¬ OpensAs i o) :
    written i o.input o.output (some (writtenSince i c after)) =
      some (writtenSince i c (after ++ [o])) := by
  obtain ⟨t, ⟨d, k⟩, r, m, n⟩ := o
  cases k with
  | doeventopen =>
    have hr : r ≠ i.toInt := fun hr => h ⟨rfl, hr⟩
    rw [writtenSince_other rfl rfl]
    exact if_neg hr
  | doeventchown j U G junk =>
    by_cases hj : j = i ∧ r = 0
    · have hown : chownOf i ⟨t, (d, .doeventchown j U G junk), r, m, n⟩ = some (U, G) := if_pos hj
      rw [writtenSince_chown hown rfl]
      exact if_pos hj
    · have hown : chownOf i ⟨t, (d, .doeventchown j U G junk), r, m, n⟩ = none := if_neg hj
      rw [writtenSince_other hown rfl]
      exact if_neg hj
  | doeventchmod j uf gf junk =>
    by_cases hj : j = i ∧ r = 0
    · have hmod : chmodOf i ⟨t, (d, .doeventchmod j uf gf junk), r, m, n⟩ = some (uf, gf) := if_pos hj
      rw [writtenSince_chmod rfl hmod]
      exact if_pos hj
    · have hmod : chmodOf i ⟨t, (d, .doeventchmod j uf gf junk), r, m, n⟩ = none := if_neg hj
      rw [writtenSince_other rfl hmod]
      exact if_neg hj
  | _ =>
    rw [writtenSince_other rfl rfl]
    rfl

end

theorem written_none {i : Int32} {o : Performed} (h : ¬ OpensAs i o) :
    written i o.input o.output none = none := by
  obtain ⟨t, ⟨d, k⟩, r, j, n⟩ := o
  cases k with
  | doeventopen => exact if_neg fun hr => h ⟨rfl, hr⟩
  | _ => simp [written]

/-- The replay is what the last open of the id and the calls since then say. -/
theorem replay_eq_some {i : Int32} {ops : List Performed} {v : StatVals}
    (h : replay i ops = some v) :
    ∃ o after, InstalledBy i ops o after ∧ v = writtenSince i o.input.1 after := by
  induction ops using List.reverseRecOn generalizing v with
  | nil => cases h
  | append_singleton ops o ih =>
    rw [replay_append] at h
    by_cases ho : OpensAs i o
    · refine ⟨o, [], ⟨⟨ops, rfl⟩, ho, fun _ h => by cases h⟩, ?_⟩
      rw [written, ho.1] at h
      simp only [ho.2, if_true, Option.some.injEq] at h
      rw [← h]
      rfl
    · cases hv : replay i ops with
      | none =>
        rw [hv, written_none ho] at h
        cases h
      | some w =>
        obtain ⟨o', after, ⟨⟨before, rfl⟩, hopens, hlast⟩, rfl⟩ := ih hv
        rw [hv, written_since ho] at h
        refine ⟨o', after ++ [o], ⟨⟨before, by simp⟩, hopens, ?_⟩, (Option.some.inj h).symm⟩
        intro x hx
        rcases List.mem_append.mp hx with hx | hx
        · exact hlast x hx
        · rw [List.mem_singleton.mp hx]
          exact ho

/-- The converse: an id has one last open, so there is only one way to read the history. -/
theorem InstalledBy.replay {i : Int32} {ops : List Performed}
    {o : Performed} {after : List Performed}
    (h : InstalledBy i ops o after) : replay i ops = some (writtenSince i o.input.1 after) := by
  obtain ⟨⟨before, rfl⟩, hopens, hlast⟩ := h
  induction after using List.reverseRecOn with
  | nil =>
    rw [replay_append, written, hopens.1]
    exact if_pos hopens.2
  | append_singleton after o' ih =>
    rw [← List.cons_append, ← List.append_assoc, replay_append,
      ih fun x hx => hlast x (List.mem_append_left _ hx)]
    exact written_since (hlast o' (List.mem_append_right _ (List.mem_singleton_self o')))

/-! ### The records of the machine -/

/-- How the program counter of a task goes with the call it is in. The parameters are the
records and the list. Past the read section of a chown or chmod the event that was found is
the one with the id of the call, or there was no event at all. -/
def Underway (mem : Addr → Event) (l : List Addr) (a : Option (Cred × Call)) : Pc → Prop
  | .user | .ret _ => a = none
  | .openAlloc c | .openWrite c _ => a = some (c, .doeventopen)
  | .openRet e => ∃ c, a = some (c, .doeventopen) ∧ e ∈ l ∧ (mem e).vals = ⟨c.euid, c.egid, 1, 1⟩
  | .chownRead c i UID GID junk => a = some (c, .doeventchown i UID GID junk)
  | .chownWrite c e UID GID => ∃ i junk, a = some (c, .doeventchown i UID GID junk) ∧
      (l ≠ [] → e ∈ l ∧ (mem e).id = i)
  | .chmodRead c i UIDFlag GIDFlag junk => a = some (c, .doeventchmod i UIDFlag GIDFlag junk)
  | .chmodWrite c e UIDFlag GIDFlag => ∃ i junk, a = some (c, .doeventchmod i UIDFlag GIDFlag junk) ∧
      (l ≠ [] → e ∈ l ∧ (mem e).id = i)
  | q => ∃ c k, a = some (c, k) ∧ q.kind = some k.kind

/-- The replay of the calls so far gives owner and flags of every live event. An event that
open has numbered and not yet returned is not in the history. -/
structure Books (h : OutcomeHistory) (s : State) : Prop where
  seq : SeqInv s
  ids : IdsInv s
  calls : ∀ t, Underway s.mem s.eventlist (underway h t) (s.pc t)
  events : ∀ a ∈ s.eventlist, (∃ t, s.pc t = .openRet a) ∨
    replay (s.mem a).id (operations h) = some (s.mem a).vals

theorem apply_vals (s : State) (t : Task) (e : Effect) (b : Addr) :
    ((apply s t e).mem b).vals = match e with
      | .openSection c a => if b = a then ⟨c.euid, c.egid, 1, 1⟩ else (s.mem b).vals
      | .setOwner a UID GID =>
        if b = a then { (s.mem a).vals with uid := UID, gid := GID } else (s.mem b).vals
      | .setFlags a UIDFlag GIDFlag =>
        if b = a then { (s.mem a).vals with uidFlag := UIDFlag, gidFlag := GIDFlag }
        else (s.mem b).vals
      | _ => (s.mem b).vals := by
  have hvals : ∀ v : Event, v.vals = ⟨v.attrs.1, v.attrs.2.1, v.attrs.2.2.1, v.attrs.2.2.2⟩ :=
    fun _ => rfl
  rw [hvals, apply_attrs]
  cases e with
  | openSection c a | setOwner a U G | setFlags a uf gf => dsimp only; split <;> rfl
  | _ => rfl

/-- A call with this value leaves owner and flags of every event as they are. -/
def Silent (a : Cred × Call) (r : Int) : Prop := ∀ i v, 0 ≤ Int32.toInt i → written i a r v = v

theorem silent_failed {a : Cred × Call} : Silent a (-1) := by
  obtain ⟨c, k⟩ := a
  intro i v hi
  cases k with
  | doeventopen => exact if_neg (by omega)
  | doeventchown j U G junk | doeventchmod j uf gf junk => exact if_neg (by simp)
  | _ => rfl

theorem silent_of_kind {a : Cred × Call} {q : Kind} (hk : a.2.kind = q)
    (hq : q ≠ .doeventopen ∧ q ≠ .doeventchown ∧ q ≠ .doeventchmod) (r : Int) : Silent a r := by
  obtain ⟨c, k⟩ := a
  intro i v _
  cases k with
  | doeventopen => exact absurd hk.symm hq.1
  | doeventchown j U G junk => exact absurd hk.symm hq.2.1
  | doeventchmod j uf gf junk => exact absurd hk.symm hq.2.2
  | _ => rfl

theorem entry_ret {c : Cred} {k : Call} {r : Int} (h : entry c k = .ret r) : r = -1 := by
  cases k <;> simp only [entry] at h <;> (try split at h) <;> cases h <;> rfl

theorem decides_self (q : Pc) : decides q q = none := by
  cases q <;> simp [decides]

/-- The places from which a call that has written owner or flags comes to its return. -/
def Pc.writes : Pc → Bool
  | .openRet _ | .chownWrite .. | .chmodWrite .. => true
  | _ => false

section
variable {h : OutcomeHistory} {s : State} {x : Action} {e : Effect} {p : Pc}

theorem Books.silent (hb : Books h s) (hm : Move s x e p) (hw : (s.pc x.task).writes = false) {r : Int}
    (hr : decides (s.pc x.task) p = some r) :
    ∃ a, underway (h ++ entered x) x.task = some a ∧ Silent a r := by
  have hcall := hb.calls x.task
  cases hm with
  | call t c k hpc =>
    refine ⟨(c, k), by rw [underway_entered]; simp [Action.task], ?_⟩
    have hret : entry c k = .ret r := by
      revert hr
      cases entry c k <;> simp [decides, Action.task, hpc]
    rw [entry_ret hret]
    exact silent_failed
  | nomem t c hpc =>
    simp only [Action.task, hpc, decides] at hr hcall
    cases hr
    exact ⟨_, by rw [underway_entered]; exact hcall, silent_failed⟩
  | kmalloc t c a hpc hfree => cases hr
  | posix t | deliver t hpc =>
    rw [Action.task, decides_self] at hr
    cases hr
  | run t e p hrq hnext =>
    have hf := Flow.of_next hnext
    rw [underway_entered]
    simp only [Action.task] at hr hcall hw ⊢
    generalize hpc : s.pc t = q at hf hr hcall hw
    cases hf with
    | openRet b | chownWrite c b U G | chmodWrite c b uf gf => cases hw
    | chownMiss c i U G junk hmiss | chmodMiss c i uf gf junk hmiss =>
      cases hr
      exact ⟨_, hcall, silent_failed⟩
    | closeMiss | closeKfree | waitMiss | waitPast | waitFinish | sigMiss | sigIdle | sigWake
    | infoFault | infoCopy | statFault | statMiss | statCopy =>
      obtain ⟨c, k, ha, hk⟩ := hcall
      exact ⟨(c, k), ha, silent_of_kind (Option.some.inj hk).symm (by decide) r⟩
    | _ => cases hr

theorem replay_decided (hm : Move s x e p) {a : Cred × Call} {r : Int}
    (hr : decides (s.pc x.task) p = some r) (ha : underway (h ++ entered x) x.task = some a) (i : Int32) :
    replay i (operations (h ++ outcomeEvents s x)) = written i a r (replay i (operations h)) := by
  obtain ⟨j, n, hops⟩ := operations_decided (r := r) ha
  rw [outcomeEvents_of_move hm, ← List.append_assoc, hr, Option.elim_some, hops, replay_append,
    operations_entered]

/-- Unless a call that has written comes to its return, the replay stays as it is. -/
theorem Books.replay_step (hb : Books h s) (hm : Move s x e p) (hw : (s.pc x.task).writes = false)
    {i : Int32} (hi : 0 ≤ i.toInt) :
    replay i (operations (h ++ outcomeEvents s x)) = replay i (operations h) := by
  cases hr : decides (s.pc x.task) p with
  | none =>
    rw [outcomeEvents_of_move hm, hr, Option.elim_none, List.append_nil, operations_entered]
  | some r =>
    obtain ⟨a, ha, hsilent⟩ := hb.silent hm hw hr
    rw [replay_decided hm hr ha]
    exact hsilent i _ hi

theorem underway_of_ne (hm : Move s x e p) {u : Task} (hu : u ≠ x.task) :
    underway (h ++ outcomeEvents s x) u = underway h u := by
  have hentered : underway (h ++ entered x) u = underway h u := by
    rw [underway_entered]
    cases x with
    | call t c k => exact if_neg hu
    | _ => rfl
  rw [outcomeEvents_of_move hm, ← List.append_assoc]
  cases decides (s.pc x.task) p with
  | none => rw [Option.elim_none, List.append_nil, hentered]
  | some r => rw [Option.elim_some, underway_respond, if_neg hu, hentered]

theorem underway_self (hm : Move s x e p) :
    underway (h ++ outcomeEvents s x) x.task =
      (decides (s.pc x.task) p).elim (underway (h ++ entered x) x.task) fun _ => none := by
  rw [outcomeEvents_of_move hm, ← List.append_assoc]
  cases decides (s.pc x.task) p with
  | none => rw [Option.elim_none, List.append_nil, Option.elim_none]
  | some r => rw [Option.elim_some, Option.elim_some, underway_respond, if_pos rfl]

theorem underway_entry (mem : Addr → Event) (l : List Addr) (c : Cred) (k : Call) :
    Underway mem l ((decides .user (entry c k)).elim (some (c, k)) fun _ => none) (entry c k) := by
  cases k <;> simp only [entry] <;> (try split) <;> simp [decides, Underway, Pc.kind, Call.kind]

/-- Where other calls are while one is executed, records and list do not matter. -/
theorem Underway.of_parked {mem mem' : Addr → Event} {l l' : List Addr} {a : Option (Cred × Call)}
    {q : Pc} (hq : q.parked = true) (h : Underway mem l a q) : Underway mem' l' a q := by
  cases q with
  | user | ret r | waitAsleep b => exact h
  | _ => cases hq

/-- The step of the task itself. -/
theorem Books.calls_self (hb : Books h s) (hm : Move s x e p) :
    Underway (apply s x.task e).mem (apply s x.task e).eventlist
      (underway (h ++ outcomeEvents s x) x.task) p := by
  have hcall := hb.calls x.task
  rw [underway_self hm, underway_entered]
  cases hm with
  | call t c k hpc =>
    simp only [Action.task, hpc, if_true]
    exact underway_entry _ _ c k
  | nomem t c hpc => simp [Action.task, hpc, decides, Underway]
  | kmalloc t c a hpc hfree =>
    simp only [Action.task, hpc] at hcall
    exact hcall
  | posix t | deliver t hpc =>
    simp only [Action.task, decides_self] at hcall ⊢
    exact hcall
  | run t e p hrq hnext =>
    have hf := Flow.of_next hnext
    simp only [Action.task] at hcall ⊢
    generalize hpc : s.pc t = q at hf hcall
    cases hf with
    | ret r => exact hcall
    | openWrite c b =>
      refine ⟨c, hcall, ?_, ?_⟩
      · rw [apply_eventlist]
        exact List.mem_append_right _ (List.mem_singleton_self b)
      · rw [apply_vals]
        exact if_pos rfl
    | chownFound c i U G junk b hfound | chmodFound c i uf gf junk b hfound =>
      refine ⟨i, junk, hcall, fun hl => ?_⟩
      obtain ⟨hm, hid, _⟩ := readSectionUser_some hl hfound
      exact ⟨hm, hid⟩
    | openRet | closeMiss | closeKfree | waitMiss | waitPast | waitFinish | sigMiss | sigIdle | sigWake
    | infoFault | infoCopy | chownMiss | chownWrite | chmodMiss | chmodWrite | statFault | statMiss
    | statCopy => simp [decides, Underway]
    | _ => exact hcall

theorem Books.calls_step (hb : Books h s) (hx : OneAtATime s x) (hm : Move s x e p) (u : Task) :
    Underway ((apply s x.task e).goto x.task p).mem ((apply s x.task e).goto x.task p).eventlist
      (underway (h ++ outcomeEvents s x) u) (((apply s x.task e).goto x.task p).pc u) := by
  by_cases hu : u = x.task
  · subst hu
    rw [goto_pc, Function.update_self]
    exact hb.calls_self hm
  · rw [goto_pc, Function.update_of_ne hu, underway_of_ne hm hu, apply_pc]
    rcases hx with hx | hx
    · cases hm with
      | posix t => exact hb.calls u
      | _ => cases hx
    · exact (hb.calls u).of_parked (hx u hu)

/-- The event at `b` is as the history says, or its open has not yet returned. -/
def Accounted (h : OutcomeHistory) (s : State) (b : Addr) : Prop :=
  (∃ t, s.pc t = .openRet b) ∨ replay (s.mem b).id (operations h) = some (s.mem b).vals

/-- An open that is on its way to its return stays there while another task steps. -/
theorem openRet_step {b : Addr} {u : Task} (hu : s.pc u = .openRet b) (hne : s.pc x.task ≠ .openRet b) :
    ∃ t, ((apply s x.task e).goto x.task p).pc t = .openRet b := by
  have hux : u ≠ x.task := fun he => hne (he ▸ hu)
  exact ⟨u, by rw [goto_pc, Function.update_of_ne hux, apply_pc]; exact hu⟩

theorem Books.accounted_other (hb : Books h s) (hm : Move s x e p) (hw : (s.pc x.task).writes = false)
    {b : Addr} (hmem : b ∈ ((apply s x.task e).goto x.task p).eventlist) :
    Accounted (h ++ outcomeEvents s x) ((apply s x.task e).goto x.task p) b := by
  have ho := hm.origin
  have hkept : b ∈ s.eventlist → ((apply s x.task e).mem b).id = (s.mem b).id →
      ((apply s x.task e).mem b).vals = (s.mem b).vals →
      Accounted (h ++ outcomeEvents s x) ((apply s x.task e).goto x.task p) b := by
    intro hl hid hvals
    refine (hb.events b hl).imp ?_ ?_
    · rintro ⟨u, hu⟩
      refine openRet_step hu fun hpc => ?_
      rw [hpc] at hw
      cases hw
    · intro hreplay
      rw [goto_mem, hid, hvals, hb.replay_step hm hw (hb.ids.nonneg b hl)]
      exact hreplay
  rw [goto_eventlist, apply_eventlist] at hmem
  cases e with
  | openSection c a =>
    by_cases hba : b = a
    · exact .inl ⟨x.task, by rw [goto_pc, Function.update_self, hba]; exact ho.2⟩
    · have hl : b ∈ s.eventlist := by simpa [hba] using hmem
      exact hkept hl (by rw [apply_id]; exact if_neg hba) (by rw [apply_vals]; exact if_neg hba)
  | setOwner a U G | setFlags a uf gf =>
    obtain ⟨c, hpc, _⟩ := ho
    rw [hpc] at hw
    cases hw
  | closeSection a process =>
    exact hkept (List.mem_of_mem_erase hmem) (by rw [apply_id]) (by rw [apply_vals])
  | _ => exact hkept hmem (by rw [apply_id]) (by rw [apply_vals])

end

section
variable {h : OutcomeHistory} {s : State} {t : Task} {b : Addr} (hb : Books h s) (hl : b ∈ s.eventlist)
include hb hl

/-- An open returns: the event is the one that the history now has under its id. -/
theorem Books.accounted_open {a : Addr} (hpc : s.pc t = .openRet a)
    (hm : Move s (.run t) .skip (.ret (s.mem a).id.toInt)) :
    Accounted (h ++ outcomeEvents s (.run t)) (s.goto t (.ret (s.mem a).id.toInt)) b := by
  have hcall := hb.calls t
  rw [hpc] at hcall
  obtain ⟨c, ha, hal, hvals⟩ := hcall
  have hreplay := fun i => replay_decided (a := (c, .doeventopen)) hm
    (by rw [Action.task, hpc]; rfl) (by rw [underway_entered]; exact ha) i
  by_cases hba : b = a
  · subst hba
    refine .inr ?_
    rw [goto_mem, hreplay, hvals]
    exact if_pos rfl
  · refine (hb.events b hl).imp ?_ ?_
    · rintro ⟨u, hu⟩
      refine openRet_step (x := .run t) (e := .skip) hu fun he => ?_
      rw [Action.task, hpc] at he
      cases he
      exact hba rfl
    · intro hold
      have hne : ¬ (s.mem a).id.toInt = (s.mem b).id.toInt :=
        fun he => hba (hb.ids.inj hl hal (Int32.toInt_inj.mp he.symm))
      rw [goto_mem, hreplay, written, if_neg hne]
      exact hold

/-- A chown or chmod writes the event `a` and returns 0: `f` is what it does to the values. -/
theorem Books.accounted_write {a : Addr} {e : Effect} {k : Cred × Call} {f : StatVals → StatVals}
    (hm : Move s (.run t) e (.ret 0)) (hdec : decides (s.pc t) (.ret 0) = some 0)
    (hpc : ∀ a, s.pc t ≠ .openRet a) (hk : underway h t = some k)
    (hid : ((apply s t e).mem b).id = (s.mem b).id)
    (hvals : ((apply s t e).mem b).vals = if b = a then f (s.mem a).vals else (s.mem b).vals)
    (hwritten : ∀ i v, written i k 0 v = if i = (s.mem a).id then v.map f else v) (hal : a ∈ s.eventlist) :
    Accounted (h ++ outcomeEvents s (.run t)) ((apply s t e).goto t (.ret 0)) b := by
  refine (hb.events b hl).imp ?_ ?_
  · rintro ⟨u, hu⟩
    exact openRet_step (x := .run t) hu (hpc b)
  · intro hold
    rw [goto_mem, hid, hvals, replay_decided hm hdec (by rw [underway_entered]; exact hk), hold, hwritten]
    by_cases hba : b = a
    · subst hba
      simp
    · rw [if_neg hba, if_neg fun he => hba (hb.ids.inj hl hal he)]

end

theorem Books.events_step {h : OutcomeHistory} {s : State} {x : Action} {e : Effect} {p : Pc}
    (hb : Books h s) (hm : Move s x e p) {b : Addr}
    (hmem : b ∈ ((apply s x.task e).goto x.task p).eventlist) :
    Accounted (h ++ outcomeEvents s x) ((apply s x.task e).goto x.task p) b := by
  cases hw : (s.pc x.task).writes with
  | false => exact hb.accounted_other hm hw hmem
  | true =>
    rw [goto_eventlist, apply_eventlist] at hmem
    have hcall := hb.calls x.task
    have hm' := hm
    cases hm with
    | call t c k hpc | deliver t hpc | nomem t c hpc | kmalloc t c a hpc hfree =>
      rw [Action.task, hpc] at hw
      cases hw
    | posix t =>
      have hnone : outcomeEvents s (.posix t) = [] := by
        rw [outcomeEvents_of_move hm', Action.task, decides_self]
        rfl
      rw [hnone, List.append_nil]
      exact (goto_self (apply s t .posix) t).symm ▸ hb.events b hmem
    | run t e p hrq hnext =>
      have hf := Flow.of_next hnext
      simp only [Action.task] at hw hcall hmem ⊢
      generalize hpc : s.pc t = q at hf hw hcall
      cases hf with
      | openRet a => exact hb.accounted_open hmem hpc hm'
      | chownWrite c a U G =>
        obtain ⟨i, junk, hk, hfound⟩ := hcall
        obtain ⟨hal, rfl⟩ := hfound (List.ne_nil_of_mem hmem)
        refine hb.accounted_write (a := a) (f := fun w => { w with uid := U, gid := G }) hmem hm'
          (by rw [hpc]; rfl) (by simp [hpc]) hk (by rw [apply_id]) (by rw [apply_vals]) ?_ hal
        intro i v
        simp [written, eq_comm]
      | chmodWrite c a uf gf =>
        obtain ⟨i, junk, hk, hfound⟩ := hcall
        obtain ⟨hal, rfl⟩ := hfound (List.ne_nil_of_mem hmem)
        refine hb.accounted_write (a := a) (f := fun w => { w with uidFlag := uf, gidFlag := gf }) hmem hm'
          (by rw [hpc]; rfl) (by simp [hpc]) hk (by rw [apply_id]) (by rw [apply_vals]) ?_ hal
        intro i v
        simp [written, eq_comm]
      | _ => cases hw

theorem Books.step {h : OutcomeHistory} {s s' : State} {x : Action} (hb : Books h s) (hx : SeqStep s x)
    (hst : DoEvent.step s x = some s') : Books (h ++ outcomeEvents s x) s' := by
  have hseq := hb.seq.step hx.1 hst
  have hids := hb.ids.step hb.seq.list hx.2 hst
  obtain ⟨e, p, hm, rfl⟩ := step_eq_some.mp hst
  exact ⟨hseq, hids, hb.calls_step hx.1 hm, fun b => hb.events_step hm⟩

theorem books_run {mem : Addr → Event} {user : Task → UserMem} {xs : List Action} {s : State}
    (hrun : Run step SeqStep (doeventInit mem user) xs s) :
    Books (observe step outcomeEvents (doeventInit mem user) xs) s := by
  have hstart : Books [] (doeventInit mem user) :=
    ⟨doeventInit_seqInv mem user, doeventInit_idsInv mem user, fun _ => rfl,
      fun a ha => absurd ha List.not_mem_nil⟩
  exact hrun.observed outcomeEvents Books hstart fun _ _ _ _ hb hx hst => hb.step hx hst

/-! ### What stat copies out -/

/-- `m'` is `m` with the values `v` at the locations that are not NULL, and nothing else
changed. -/
structure Delivered (m : UserMem) (p : StatPtrs) (v : StatVals) (m' : UserMem) : Prop where
  uid : ∀ a, p.uid = some a → wordAt m' a = v.uid
  gid : ∀ a, p.gid = some a → wordAt m' a = v.gid
  uidFlag : ∀ a, p.uidFlag = some a → wordAt m' a = v.uidFlag.toUInt32
  gidFlag : ∀ a, p.gidFlag = some a → wordAt m' a = v.gidFlag.toUInt32
  outside : ∀ k, (∀ a ∈ p.targets, k < a ∨ a + 4 ≤ k) → m'.byte k = m.byte k
  readable : m'.readable = m.readable
  writable : m'.writable = m.writable

theorem delivered_stores (m : UserMem) {p : StatPtrs} (v : StatVals) (hp : p.targets.Pairwise Apart) :
    Delivered m p v (m.stores (p.outputs v)) := by
  have hword : ∀ w ∈ p.outputs v, wordAt (m.stores (p.outputs v)) w.1 = w.2 :=
    fun w hw => wordAt_stores m (by rwa [StatPtrs.outputs_fst]) hw
  refine ⟨?_, ?_, ?_, ?_, ?_, stores_readable m _, stores_writable m _⟩
  · intro a ha
    exact hword (a, v.uid) (by simp [StatPtrs.outputs, ha])
  · intro a ha
    exact hword (a, v.gid) (by simp [StatPtrs.outputs, ha])
  · intro a ha
    exact hword (a, v.uidFlag.toUInt32) (by simp [StatPtrs.outputs, ha])
  · intro a ha
    exact hword (a, v.gidFlag.toUInt32) (by simp [StatPtrs.outputs, ha])
  · intro k hk
    refine stores_byte_of_outside m fun w hw => hk w.1 ?_
    rw [← StatPtrs.outputs_fst p v]
    exact List.mem_map_of_mem hw

theorem stat_live {s : State} {t : Task} (ht : s.pc t = .user) (hrq : (s.sched t).onRq = true)
    (hi : IdsInv s) (c : Cred) {a : Addr} (ha : a ∈ s.eventlist) {p : StatPtrs} (junk : Option Addr)
    (hread : ∀ b ∈ p.targets, Covers (s.user t).readable b 4)
    (hwrite : ∀ b ∈ p.targets, Covers (s.user t).writable b 4) :
    Outcome s t c (.doeventstat (s.mem a).id p junk)
      { s with user := Function.update s.user t ((s.user t).stores (p.outputs (s.mem a).vals)) } 0 := by
  intro s' o
  rw [callEnds_stat ht hrq, sysDoeventstat]
  cases hp : statProbe (s.user t) p with
  | none =>
    obtain ⟨b, hb, hn⟩ := statProbe_eq_none.mp hp
    exact absurd (hread b hb) hn
  | some v =>
    have hfound := statLoop_found (hi.search.mpr ⟨ha, rfl⟩) junk v
    simp only [hi.valid ha, Bool.false_eq_true, if_false, hfound,
      statFinish_of_covers (s.mem a).vals hwrite, returned, Prod.mk.injEq]

/-- In every run of calls one at a time, stat of a live event returns 0 and reports the owner
given by the last chown of the id that returned 0 since the open that installed it, and
the flags given by the last such chmod. -/
theorem stat_reports_last_writer (mem : Addr → Event) (user : Task → UserMem) (xs : List Action)
    (s : State) (hrun : Run step SeqStep (doeventInit mem user) xs s) (t : Task) (ht : s.pc t = .user)
    (hturn : ∀ u, u ≠ t → (s.pc u).parked = true) (c : Cred) (a : Addr) (ha : a ∈ s.eventlist)
    (p : StatPtrs) (junk : Option Addr) (hdisjoint : p.targets.Pairwise Apart)
    (hread : ∀ b ∈ p.targets, Covers (s.user t).readable b 4)
    (hwrite : ∀ b ∈ p.targets, Covers (s.user t).writable b 4) :
    ∃ o after m',
      InstalledBy (s.mem a).id (operations (observe step outcomeEvents (doeventInit mem user) xs)) o
        after ∧
      Delivered (s.user t) p (writtenSince (s.mem a).id o.input.1 after) m' ∧
      Outcome s t c (.doeventstat (s.mem a).id p junk)
        { s with user := Function.update s.user t m' } 0 := by
  have hb := books_run hrun
  have hrq := onRq_of_user hb.seq.own ht
  have hreplay : replay (s.mem a).id (operations (observe step outcomeEvents (doeventInit mem user) xs)) =
      some (s.mem a).vals := by
    refine (hb.events a ha).resolve_left ?_
    rintro ⟨u, hu⟩
    by_cases hut : u = t
    · rw [hut, ht] at hu
      cases hu
    · have hparked := hturn u hut
      rw [hu] at hparked
      cases hparked
  obtain ⟨o, after, hinstalled, hvals⟩ := replay_eq_some hreplay
  refine ⟨o, after, _, hinstalled, ?_, stat_live ht hrq hb.ids c ha junk hread hwrite⟩
  rw [← hvals]
  exact delivered_stores (s.user t) (s.mem a).vals hdisjoint

/-- User 5 opens an event and gives it to user 7, can then not take it back, and user 7
changes the flags. -/
def handedOver : List Action :=
  opens 0 ⟨5, 5⟩ 1 ++ [.call 1 ⟨5, 5⟩ (.doeventchown 0 7 8 none)] ++ runs 1 3 ++
    [.call 1 ⟨5, 5⟩ (.doeventchown 0 5 5 none)] ++ runs 1 2 ++
    [.call 1 ⟨7, 7⟩ (.doeventchmod 0 0 3 none)] ++ runs 1 3

theorem stat_reports_last_writer_handed_over :
    ∃ s, Run step SeqStep boot handedOver s ∧ ∃ m',
      Delivered (s.user 0) ⟨some 16, some 20, none, some 24⟩ ⟨7, 8, 0, 3⟩ m' ∧
      Outcome s 0 ⟨9, 9⟩ (.doeventstat 0 ⟨some 16, some 20, none, some 24⟩ none)
        { s with user := Function.update s.user 0 m' } 0 := by
  obtain ⟨s, hr, hi, ht⟩ := run_of_idle_test SeqStep handedOver 2
    (seqStepTest 2)
    (fun s => decide (s.eventlist = [1] ∧ (s.mem 1).id = 0 ∧
      ((List.range 2).all fun u => s.pc u == .user) = true ∧
      (s.user 0).readable 0 = true ∧ (s.user 0).writable 0 = true))
    (by decide) (boot_idleFrom 2) fun _ _ => seqStep_of_test
  obtain ⟨hlist, hid, hpc, hread, hwrite⟩ := of_decide_eq_true ht
  have hidle := allUser_of_test hi hpc
  -- the twelve bytes from 16 on lie in page 0
  have hcovers : ∀ ok : ℕ → Bool, ok 0 = true →
      ∀ b ∈ StatPtrs.targets ⟨some 16, some 20, none, some 24⟩, Covers ok b 4 := by
    intro ok hok b hb k hk hlt
    have hb' : b ≤ 24 := by
      simp [StatPtrs.targets] at hb
      omega
    rwa [show k / pageSize = 0 from Nat.div_eq_of_lt (by rw [pageSize]; omega)]
  obtain ⟨o, after, m', hinstalled, hdelivered, hout⟩ := stat_reports_last_writer bootMem bootUser
    handedOver s hr 0 (hidle 0) (fun u _ => by rw [hidle u]; rfl) ⟨9, 9⟩ 1 (by simp [hlist])
    ⟨some 16, some 20, none, some 24⟩ none
    (by simp [StatPtrs.targets, Apart]) (hcovers _ hread) (hcovers _ hwrite)
  rw [hid] at hinstalled hdelivered hout
  have hvals : replay 0 (operations (observe step outcomeEvents boot handedOver)) =
      some ⟨7, 8, 0, 3⟩ := by decide
  rw [← Option.some.inj (hvals.symm.trans hinstalled.replay)] at hdelivered
  exact ⟨s, hr, m', hdelivered, hout⟩

end DoEvent
