import DoEvent.Owners
import DoEvent.Transition.Commute

/-!
# Calls on different events commute

A call of close, sig, chown, chmod or stat on a live event changes the record of this event,
takes it off the list, wakes tasks of its queue and writes the outputs of its caller, and
what it does depends on nothing else (`Patch`). Two such calls on different events
therefore do not notice each other, although both search the same list.
-/

namespace DoEvent

open Transition

/-- A call with its caller. -/
structure Invocation where
  task : Task
  cred : Cred
  call : Call

/-- The id that is passed to close, sig, chown, chmod or stat. -/
def Call.target : Call → Option Int32
  | .doeventclose eventID | .doeventsig eventID | .doeventchown eventID _ _ _
  | .doeventchmod eventID _ _ _ | .doeventstat eventID _ _ => some eventID
  | _ => none

def Call.outputs : Call → List ℕ
  | .doeventstat _ p _ => p.targets
  | _ => []

/-- What a call returns, and the words at its output locations after it. -/
structure Answer where
  value : Int
  words : List UInt32

/-- The calls executed one at a time, each from its entry to the return to user mode. -/
inductive Executes : State → List Invocation → List Answer → State → Prop where
  | nil (s : State) : Executes s [] [] s
  | cons {s m m' s' : State} {v : Invocation} {vs : List Invocation} {r : Int} {rs : List Answer}
      (hcall : CallEnds s v.task v.cred v.call m (some r)) (hret : step m (.run v.task) = some m')
      (hrest : Executes m' vs rs s') :
      Executes s (v :: vs) (⟨r, v.call.outputs.map (wordAt (m'.user v.task))⟩ :: rs) s'

/-! ### What a call does to its event -/

/-- The changes a call makes: the record of its event, the tasks it wakes, whether the event
leaves the list and its memory is freed, the bytes it writes to its caller. -/
structure Patch where
  event : Event
  woken : List Task
  removed : Bool
  pieces : List (ℕ × List UInt8)
  value : Int

def Patch.refused (v : Event) : Patch := ⟨v, [], false, [], -1⟩

/-- The record after its waiters have been released. -/
def released (sched : Task → Sched) (v : Event) : Event :=
  if waitqueueActive v then { v with condition := 1, queue := (wakeUpCommon v.queue sched).1 } else v

/-- The changes of a call whose event is `v`. -/
def patch (c : Cred) (m : UserMem) (sched : Task → Sched) (v : Event) : Call → Patch
  | .doeventclose _ =>
    if validateEvent c true (some v) then ⟨released sched v, v.queue, true, [], v.queue.length⟩
    else .refused v
  | .doeventsig _ =>
    if validateEvent c true (some v) then ⟨released sched v, v.queue, false, [], v.queue.length⟩
    else .refused v
  | .doeventchown _ UID GID _ =>
    if ¬ (UID < 0 ∨ GID < 0) ∧ validateUserEvent c (some v) then
      ⟨{ v with uid := UID, gid := GID }, [], false, [], 0⟩
    else .refused v
  | .doeventchmod _ UIDFlag GIDFlag _ =>
    if validateUserEvent c (some v) then
      ⟨{ v with uidFlag := UIDFlag, gidFlag := GIDFlag }, [], false, [], 0⟩
    else .refused v
  | .doeventstat _ p _ =>
    if (statProbe m p).isSome then ⟨v, [], false, p.pieces m.writable v.vals, p.code m.writable v.vals⟩
    else .refused v
  | _ => .refused v

def install (s : State) (t : Task) (e : Addr) (p : Patch) : State where
  mem := Function.update s.mem e p.event
  inUse := if p.removed then Function.update s.inUse e false else s.inUse
  eventlist := if p.removed then s.eventlist.erase e else s.eventlist
  sched := fun u => if u ∈ p.woken then wake (s.sched u) else s.sched u
  user := Function.update s.user t ((s.user t).copies p.pieces)
  pc := s.pc

theorem install_refused (s : State) (t : Task) (e : Addr) : install s t e (.refused (s.mem e)) = s := by
  simp [install, Patch.refused, UserMem.copies]

theorem release_eq (s : State) (e : Addr) :
    (if waitqueueActive (s.mem e) then wakeUpAll (s.modify e fun v => { v with condition := 1 }) e
      else s) =
      { s with
        mem := Function.update s.mem e (released s.sched (s.mem e))
        sched := fun u => if u ∈ (s.mem e).queue then wake (s.sched u) else s.sched u } := by
  by_cases h : waitqueueActive (s.mem e) = true
  · have hsched : (wakeUpCommon (s.mem e).queue s.sched).2 =
        fun u => if u ∈ (s.mem e).queue then wake (s.sched u) else s.sched u :=
      funext fun u => wakeUpCommon_sched _ _ u
    rw [if_pos h, released, if_pos h]
    simp only [wakeUpAll, State.modify, Function.update_self, Function.update_idem, hsched]
  · have hempty : (s.mem e).queue = [] := by simpa [waitqueueActive] using h
    rw [if_neg h, released, if_neg h]
    simp [hempty]

section
variable {s : State} {e : Addr} {i : Int32} (hfind : searchLoop s.mem i none s.eventlist = some e)
  (t : Task) (c : Cred)
include hfind

theorem readSection_of_find :
    readSection s.mem s.eventlist c i = if validateEvent c true (some (s.mem e)) then some e else none := by
  simp only [readSection, hfind, Option.map_some]

theorem readSectionUser_of_find (junk : Option Addr) :
    readSectionUser s.mem s.eventlist c i junk =
      if validateUserEvent c (some (s.mem e)) then some e else none := by
  have hne : s.eventlist ≠ [] := List.ne_nil_of_mem (searchLoop_some hfind).1
  simp only [readSectionUser, searchLoop_junk _ _ junk hne, hfind, Option.map_some]

variable (hv : isValidEventId i = false)
include hv

theorem close_found :
    sysDoeventclose s t c i = returned (install s t e (patch c (s.user t) s.sched (s.mem e)
      (.doeventclose i))) t (patch c (s.user t) s.sched (s.mem e) (.doeventclose i)).value := by
  simp only [sysDoeventclose, hv, Bool.false_eq_true, if_false, readSection_of_find hfind, patch]
  by_cases hval : validateEvent c true (some (s.mem e)) = true
  · simp only [if_pos hval, closeSection, release_eq, count_of_active]
    simp [install, UserMem.copies]
  · simp only [if_neg hval, install_refused]
    rfl

theorem sig_found :
    sysDoeventsig s t c i = returned (install s t e (patch c (s.user t) s.sched (s.mem e)
      (.doeventsig i))) t (patch c (s.user t) s.sched (s.mem e) (.doeventsig i)).value := by
  have hsplit : (if waitqueueActive (s.mem e) then
      returned (wakeUpAll (s.modify e fun v => { v with condition := 1 }) e) t
        (countTasks (s.mem e).queue 0) else returned s t 0) =
      returned (if waitqueueActive (s.mem e) then
        wakeUpAll (s.modify e fun v => { v with condition := 1 }) e else s) t
        ((if waitqueueActive (s.mem e) then countTasks (s.mem e).queue 0 else 0 : ℕ) : Int) := by
    split <;> rfl
  simp only [sysDoeventsig, hv, Bool.false_eq_true, if_false, readSection_of_find hfind, patch]
  by_cases hval : validateEvent c true (some (s.mem e)) = true
  · simp only [if_pos hval, hsplit, release_eq, count_of_active]
    simp [install, UserMem.copies]
  · simp only [if_neg hval, install_refused]
    rfl

theorem chown_found (UID GID : UInt32) (junk : Option Addr) :
    sysDoeventchown s t c i UID GID junk = returned (install s t e (patch c (s.user t) s.sched (s.mem e)
      (.doeventchown i UID GID junk))) t
        (patch c (s.user t) s.sched (s.mem e) (.doeventchown i UID GID junk)).value := by
  simp only [sysDoeventchown, hv, Bool.false_eq_true, false_or, readSectionUser_of_find hfind, patch]
  by_cases hneg : UID < 0 ∨ GID < 0
  · simp only [not_true_eq_false, hneg, if_true, false_and, if_false, install_refused]
    rfl
  · by_cases hval : validateUserEvent c (some (s.mem e)) = true
    · simp only [if_pos hval, hneg, if_false, not_false_eq_true, true_and]
      simp [install, State.modify, UserMem.copies]
    · simp only [if_neg hval, hneg, if_false, not_false_eq_true, true_and, install_refused]
      rfl

theorem chmod_found (UIDFlag GIDFlag : Int32) (junk : Option Addr) :
    sysDoeventchmod s t c i UIDFlag GIDFlag junk =
      returned (install s t e (patch c (s.user t) s.sched (s.mem e)
        (.doeventchmod i UIDFlag GIDFlag junk))) t
        (patch c (s.user t) s.sched (s.mem e) (.doeventchmod i UIDFlag GIDFlag junk)).value := by
  simp only [sysDoeventchmod, hv, Bool.false_eq_true, if_false, readSectionUser_of_find hfind, patch]
  by_cases hval : validateUserEvent c (some (s.mem e)) = true
  · simp only [if_pos hval]
    simp [install, State.modify, UserMem.copies]
  · simp only [if_neg hval, install_refused]
    rfl

theorem stat_found (q : StatPtrs) (junk : Option Addr) :
    sysDoeventstat s t i q junk = returned (install s t e (patch c (s.user t) s.sched (s.mem e)
      (.doeventstat i q junk))) t
        (patch c (s.user t) s.sched (s.mem e) (.doeventstat i q junk)).value := by
  simp only [sysDoeventstat, hv, Bool.false_eq_true, if_false, patch]
  cases hp : statProbe (s.user t) q with
  | none =>
    simp only [Option.isSome_none, Bool.false_eq_true, if_false, install_refused]
    rfl
  | some v =>
    simp only [statLoop_found hfind, statFinish_eq, Option.isSome_some, if_true]
    simp [install]

/-- A call on a live event does what its patch says. -/
theorem sysCall_found {k : Call} (hk : k.target = some i) (r : Option Addr) :
    sysCall s t c k r = returned (install s t e (patch c (s.user t) s.sched (s.mem e) k)) t
      (patch c (s.user t) s.sched (s.mem e) k).value := by
  cases k with
  | doeventclose j => cases hk; exact close_found hfind t c hv
  | doeventsig j => cases hk; exact sig_found hfind t c hv
  | doeventchown j U G junk => cases hk; exact chown_found hfind t c hv U G junk
  | doeventchmod j uf gf junk => cases hk; exact chmod_found hfind t c hv uf gf junk
  | doeventstat j q junk => cases hk; exact stat_found hfind t c hv q junk
  | _ => cases hk

end

/-! ### What a patch depends on -/

section
variable (c : Cred) (m : UserMem) (sched : Task → Sched) (v : Event) (k : Call)

theorem released_id : (released sched v).id = v.id := by
  rw [released]
  split <;> rfl

theorem released_queue : (released sched v).queue.Sublist v.queue := by
  rw [released]
  split
  · exact wakeUpCommon_sublist v.queue sched
  · exact List.Sublist.refl _

theorem patch_id : (patch c m sched v k).event.id = v.id := by
  cases k <;> simp only [patch] <;> (try split) <;> first | rfl | exact released_id sched v

theorem patch_queue : (patch c m sched v k).event.queue.Sublist v.queue := by
  cases k <;> simp only [patch] <;> (try split) <;>
    first | exact List.Sublist.refl _ | exact released_queue sched v

theorem patch_woken {u : Task} (h : u ∈ (patch c m sched v k).woken) : u ∈ v.queue := by
  cases k <;> simp only [patch] at h <;> (try split at h) <;> first | exact h | cases h

theorem patch_pieces {j : ℕ} (h : Touches (patch c m sched v k).pieces j) :
    ∃ a ∈ k.outputs, a ≤ j ∧ j < a + 4 := by
  have hnone : Touches [] j → False := by
    rintro ⟨p, hp, _⟩
    cases hp
  cases k with
  | doeventstat i q junk =>
    simp only [patch] at h
    split at h
    · exact StatPtrs.touches_pieces h
    · exact (hnone h).elim
  | _ =>
    simp only [patch] at h
    (try split at h) <;> exact (hnone h).elim

variable {m sched}

theorem statProbe_isSome_congr {m' : UserMem} (h : m'.readable = m.readable) (q : StatPtrs) :
    (statProbe m' q).isSome = (statProbe m q).isSome := by
  rw [Bool.eq_iff_iff, Option.isSome_iff_ne_none, Option.isSome_iff_ne_none, ne_eq, ne_eq,
    statProbe_eq_none, statProbe_eq_none, h]

theorem patch_congr {m' : UserMem} {sched' : Task → Sched} (hr : m'.readable = m.readable)
    (hw : m'.writable = m.writable) (hs : ∀ u ∈ v.queue, sched' u = sched u) :
    patch c m' sched' v k = patch c m sched v k := by
  have hreleased : released sched' v = released sched v := by
    rw [released, released, wakeUpCommon_congr hs]
  cases k with
  | doeventclose i | doeventsig i => simp only [patch, hreleased]
  | doeventstat i q junk => simp only [patch, statProbe_isSome_congr hr, hw]
  | _ => rfl

end

/-! ### Two calls -/

def Invocation.patch (v : Invocation) (s : State) (e : Addr) : Patch :=
  DoEvent.patch v.cred (s.user v.task) s.sched (s.mem e) v.call

/-- The call on the event at `e`, from its entry to the return to user mode. -/
def Invocation.performAt (v : Invocation) (e : Addr) (s : State) : State × Answer :=
  let s' := install s v.task e (v.patch s e)
  (s', ⟨(v.patch s e).value, v.call.outputs.map (wordAt (s'.user v.task))⟩)

def Invocation.perform (v : Invocation) (s : State) : State × Answer :=
  match v.call.target.bind fun i => searchLoop s.mem i none s.eventlist with
  | none => (s, ⟨-1, []⟩)
  | some e => v.performAt e s

/-- Outputs of one task do not overlap. -/
def OutputsApart (v w : Invocation) : Prop :=
  v.task = w.task → ∀ a ∈ v.call.outputs, ∀ b ∈ w.call.outputs, Apart a b

structure Ready (vs : List Invocation) (s : State) : Prop where
  ids : IdsInv s
  queues : ∀ a ∈ s.eventlist, ∀ b ∈ s.eventlist, a ≠ b → ∀ u ∈ (s.mem a).queue, u ∉ (s.mem b).queue
  callers : ∀ v ∈ vs, s.pc v.task = .user ∧ (s.sched v.task).onRq = true
  live : ∀ v ∈ vs, ∃ a ∈ s.eventlist, v.call.target = some (s.mem a).id
  distinct : (vs.map fun v => v.call.target).Nodup
  apart : vs.Pairwise OutputsApart

theorem perform_of_live {s : State} (hi : IdsInv s) {v : Invocation} {e : Addr} (he : e ∈ s.eventlist)
    (ht : v.call.target = some (s.mem e).id) : v.perform s = v.performAt e s := by
  have hfind := hi.search.mpr ⟨he, rfl⟩
  simp only [Invocation.perform, ht, Option.bind_some, hfind]

section
variable {s : State} {t : Task} {e : Addr} {p : Patch}

theorem install_mem_of_ne {a : Addr} (h : a ≠ e) : (install s t e p).mem a = s.mem a :=
  Function.update_of_ne h _ _

theorem install_listed {a : Addr} (h : a ∈ (install s t e p).eventlist) : a ∈ s.eventlist := by
  simp only [install] at h
  split at h
  · exact List.mem_of_mem_erase h
  · exact h

theorem listed_install {a : Addr} (hne : a ≠ e) (h : a ∈ s.eventlist) :
    a ∈ (install s t e p).eventlist := by
  simp only [install]
  split
  · exact (List.mem_erase_of_ne hne).mpr h
  · exact h

theorem install_user_readable (u : Task) : ((install s t e p).user u).readable = (s.user u).readable := by
  simp only [install, Function.update_apply]
  split
  next h => rw [h, copies_readable]
  next => rfl

theorem install_user_writable (u : Task) : ((install s t e p).user u).writable = (s.user u).writable := by
  simp only [install, Function.update_apply]
  split
  next h => rw [h, copies_writable]
  next => rfl

theorem install_onRq {u : Task} (h : (s.sched u).onRq = true) :
    ((install s t e p).sched u).onRq = true := by
  simp only [install]
  split
  · exact onRq_wake h
  · exact h

end

section
variable {s : State} {v w : Invocation} {e b : Addr}

theorem install_patch_id (a : Addr) : ((install s v.task e (v.patch s e)).mem a).id = (s.mem a).id := by
  by_cases h : a = e
  · subst h
    rw [install]
    simp only [Function.update_self]
    exact patch_id ..
  · rw [install_mem_of_ne h]

theorem install_patch_queue (a : Addr) :
    ((install s v.task e (v.patch s e)).mem a).queue.Sublist (s.mem a).queue := by
  by_cases h : a = e
  · subst h
    rw [install]
    simp only [Function.update_self]
    exact patch_queue ..
  · rw [install_mem_of_ne h]

theorem IdsInv.install (hi : IdsInv s) : IdsInv (install s v.task e (v.patch s e)) := by
  have hid : ∀ a, (DoEvent.install s v.task e (v.patch s e)).idOf a = s.idOf a := by
    intro a
    rw [State.idOf, State.idOf, install_patch_id]
  have hsub : (DoEvent.install s v.task e (v.patch s e)).eventlist.Sublist s.eventlist := by
    simp only [DoEvent.install]
    split
    · exact List.erase_sublist
    · exact List.Sublist.refl _
  refine ⟨(install_patch_id allevents).trans hi.sentinel, fun a ha => ?_, ?_⟩
  · rw [hid]
    exact hi.nonneg a (hsub.subset ha)
  · simp only [hid]
    exact hi.sorted.sublist hsub

/-- What a call does is not changed by a call on another event. -/
theorem patch_after (hq : ∀ u ∈ (s.mem e).queue, u ∉ (s.mem b).queue) (hne : b ≠ e) :
    w.patch (install s v.task e (v.patch s e)) b = w.patch s b := by
  rw [Invocation.patch, install_mem_of_ne hne]
  refine patch_congr _ _ _ (install_user_readable _) (install_user_writable _) fun u hu => ?_
  have hu' : u ∉ (v.patch s e).woken := fun hw => hq u (patch_woken _ _ _ _ _ hw) hu
  simp only [install, if_neg hu']

theorem not_touches_both (ha : OutputsApart v w) (htask : v.task = w.task) (j : ℕ)
    (hv : Touches (v.patch s e).pieces j) : ¬ Touches (w.patch s b).pieces j := by
  intro hw
  obtain ⟨x, hx, hjx⟩ := patch_pieces _ _ _ _ _ hv
  obtain ⟨y, hy, hjy⟩ := patch_pieces _ _ _ _ _ hw
  have happart := ha htask x hx y hy
  rw [Apart] at happart
  omega

theorem install_comm {t u : Task} {p q : Patch} (hne : b ≠ e)
    (ht : t = u → ∀ j, Touches p.pieces j → ¬ Touches q.pieces j) :
    install (install s t e p) u b q = install (install s u b q) t e p := by
  have hmem : Function.update (Function.update s.mem e p.event) b q.event =
      Function.update (Function.update s.mem b q.event) e p.event :=
    Function.update_comm hne.symm _ _ _
  have huser : Function.update (Function.update s.user t ((s.user t).copies p.pieces)) u
      ((Function.update s.user t ((s.user t).copies p.pieces) u).copies q.pieces) =
      Function.update (Function.update s.user u ((s.user u).copies q.pieces)) t
      ((Function.update s.user u ((s.user u).copies q.pieces) t).copies p.pieces) := by
    by_cases htu : t = u
    · subst htu
      simp only [Function.update_self, Function.update_idem]
      rw [copies_comm _ (ht rfl)]
    · rw [Function.update_of_ne (Ne.symm htu), Function.update_of_ne htu, Function.update_comm htu]
  have hsched : (fun x => if x ∈ q.woken then wake (if x ∈ p.woken then wake (s.sched x) else s.sched x)
      else if x ∈ p.woken then wake (s.sched x) else s.sched x) =
      fun x => if x ∈ p.woken then wake (if x ∈ q.woken then wake (s.sched x) else s.sched x)
      else if x ∈ q.woken then wake (s.sched x) else s.sched x := by
    funext x
    split_ifs <;> rfl
  simp only [install, State.mk.injEq, hmem, hsched, huser, and_true, true_and]
  constructor
  · split_ifs <;> first | rfl | exact Function.update_comm hne.symm _ _ _
  · split_ifs <;> first | rfl | exact List.erase_comm ..

/-- The words at the outputs of a call are not changed by a call on another event. -/
theorem words_after (ha : OutputsApart v w) {a : ℕ} (hout : a ∈ w.call.outputs) {q : Patch} :
    wordAt ((install (install s v.task e (v.patch s e)) w.task b q).user w.task) a =
      wordAt ((install s w.task b q).user w.task) a := by
  refine wordAt_congr fun j hj hlt => ?_
  simp only [install, Function.update_self]
  by_cases hq : Touches q.pieces j
  · exact copies_byte_of_touches hq
  · rw [copies_byte_of_not_touches _ hq, copies_byte_of_not_touches _ hq]
    by_cases htask : v.task = w.task
    · rw [htask, Function.update_self, copies_byte_of_not_touches]
      intro hp
      obtain ⟨x, hx, hjx⟩ := patch_pieces _ _ _ _ _ hp
      have happart := ha htask x hx a hout
      rw [Apart] at happart
      omega
    · rw [Function.update_of_ne (Ne.symm htask)]

theorem performAt_comm (hq : ∀ u ∈ (s.mem e).queue, u ∉ (s.mem b).queue) (hne : b ≠ e)
    (ha : OutputsApart v w) :
    (w.performAt b (v.performAt e s).1).1 = (v.performAt e (w.performAt b s).1).1 ∧
      (w.performAt b (v.performAt e s).1).2 = (w.performAt b s).2 := by
  have hw : w.patch (install s v.task e (v.patch s e)) b = w.patch s b := patch_after hq hne
  have hv : v.patch (install s w.task b (w.patch s b)) e = v.patch s e :=
    patch_after (fun u hu hu' => hq u hu' hu) hne.symm
  simp only [Invocation.performAt, hw, hv, Answer.mk.injEq, true_and]
  refine ⟨install_comm hne fun htask j => not_touches_both ha htask j, ?_⟩
  exact List.map_congr_left fun a hout => words_after ha hout

end

/-! ### Any order -/

section
variable {s : State} {v w : Invocation} {vs ws : List Invocation}

theorem OutputsApart.symm (h : OutputsApart v w) : OutputsApart w v :=
  fun htask a ha b hb => (h htask.symm b hb a ha).symm

theorem Ready.perm (hp : vs.Perm ws) (h : Ready vs s) : Ready ws s where
  ids := h.ids
  queues := h.queues
  callers := fun v hv => h.callers v (hp.mem_iff.mpr hv)
  live := fun v hv => h.live v (hp.mem_iff.mpr hv)
  distinct := (hp.map _).nodup_iff.mp h.distinct
  apart := (hp.pairwise_iff OutputsApart.symm).mp h.apart

/-- The events of two calls are different. -/
theorem Ready.ne (h : Ready (v :: vs) s) (hw : w ∈ vs) {e b : Addr}
    (he : v.call.target = some (s.mem e).id) (hb : w.call.target = some (s.mem b).id) : b ≠ e := by
  rintro rfl
  have hmem : w.call.target ∈ vs.map fun v => v.call.target := List.mem_map_of_mem hw
  rw [hb, ← he] at hmem
  exact (List.nodup_cons.mp h.distinct).1 hmem

theorem Ready.tail (h : Ready (v :: vs) s) : Ready vs (v.perform s).1 := by
  obtain ⟨e, he, hte⟩ := h.live v (List.mem_cons_self ..)
  rw [perform_of_live h.ids he hte]
  refine ⟨h.ids.install, ?_, fun w hw => ?_, fun w hw => ?_, (List.nodup_cons.mp h.distinct).2,
    (List.pairwise_cons.mp h.apart).2⟩
  · intro a ha b hb hab u hu hu'
    exact h.queues a (install_listed ha) b (install_listed hb) hab u
      ((install_patch_queue a).subset hu) ((install_patch_queue b).subset hu')
  · have hcaller := h.callers w (List.mem_cons_of_mem _ hw)
    exact ⟨hcaller.1, install_onRq hcaller.2⟩
  · obtain ⟨b, hb, htb⟩ := h.live w (List.mem_cons_of_mem _ hw)
    refine ⟨b, listed_install (h.ne hw hte htb) hb, ?_⟩
    rw [htb]
    exact congrArg some (install_patch_id b).symm

theorem Ready.diamond (h : Ready (v :: w :: vs) s) :
    (w.perform (v.perform s).1).1 = (v.perform (w.perform s).1).1 ∧
      (w.perform (v.perform s).1).2 = (w.perform s).2 := by
  obtain ⟨e, he, hte⟩ := h.live v (by simp)
  obtain ⟨b, hb, htb⟩ := h.live w (by simp)
  have hne : b ≠ e := h.ne (List.mem_cons_self ..) hte htb
  have hv := perform_of_live h.ids he hte
  have hw := perform_of_live h.ids hb htb
  -- after one of the calls the other one still finds its event
  have hv' : v.perform (w.performAt b s).1 = v.performAt e (w.performAt b s).1 :=
    perform_of_live h.ids.install (listed_install hne.symm he)
      (hte.trans (congrArg some (install_patch_id e).symm))
  have hw' : w.perform (v.performAt e s).1 = w.performAt b (v.performAt e s).1 :=
    perform_of_live h.ids.install (listed_install hne hb)
      (htb.trans (congrArg some (install_patch_id b).symm))
  rw [hv, hw, hv', hw']
  exact performAt_comm (h.queues e he b hb hne.symm) hne
    ((List.pairwise_cons.mp h.apart).1 w (List.mem_cons_self ..))

theorem commuting_calls : Commuting Invocation.perform Ready where
  perm := Ready.perm
  tail := Ready.tail
  diamond := Ready.diamond

/-- The machine's execution of one ready call. -/
theorem Ready.call_iff (h : Ready (v :: vs) s) {m m' : State} {r : Int} :
    (CallEnds s v.task v.cred v.call m (some r) ∧ step m (.run v.task) = some m') ↔
      m = (v.perform s).1.goto v.task (.ret r) ∧ m' = (v.perform s).1 ∧ r = (v.perform s).2.value := by
  obtain ⟨e, he, hte⟩ := h.live v (List.mem_cons_self ..)
  obtain ⟨hpc, hrq⟩ := h.callers v (List.mem_cons_self ..)
  have hends : CallEnds s v.task v.cred v.call m (some r) ↔
      (m, some r) = returned (v.performAt e s).1 v.task (v.performAt e s).2.value := by
    rw [callEnds_iff hpc, soloEnds_iff hrq]
    have hfound := sysCall_found (h.ids.search.mpr ⟨he, rfl⟩) v.task v.cred (h.ids.valid he) hte
    constructor
    · intro hex
      obtain ⟨a, _, ha⟩ := hex
      rw [ha, hfound]
      rfl
    · intro hm
      exact ⟨none, by simp, hm.trans (hfound none).symm⟩
  have hstep : step ((v.performAt e s).1.goto v.task (.ret (v.performAt e s).2.value)) (.run v.task) =
      some (v.performAt e s).1 := by
    have hrq' : (((v.performAt e s).1.goto v.task (.ret (v.performAt e s).2.value)).sched
        v.task).onRq = true := install_onRq (t := v.task) (e := e) hrq
    rw [step_of_flow (q := .ret (v.performAt e s).2.value) hrq' (by simp) (.ret _)]
    have hself := goto_self (v.performAt e s).1 v.task
    rw [show (v.performAt e s).1.pc v.task = .user from hpc] at hself
    rw [apply, goto_goto, hself]
  rw [hends, perform_of_live h.ids he hte, returned, Prod.mk.injEq, Option.some.injEq]
  constructor
  · rintro ⟨⟨rfl, rfl⟩, hst⟩
    rw [hstep] at hst
    exact ⟨rfl, (Option.some.inj hst).symm, rfl⟩
  · rintro ⟨rfl, rfl, rfl⟩
    exact ⟨⟨rfl, rfl⟩, hstep⟩

theorem perform_words (h : Ready (v :: vs) s) :
    (v.perform s).2.words = v.call.outputs.map (wordAt ((v.perform s).1.user v.task)) := by
  obtain ⟨e, he, hte⟩ := h.live v (List.mem_cons_self ..)
  rw [perform_of_live h.ids he hte]
  rfl

theorem executes_iff {s' : State} {rs : List Answer} (h : Ready vs s) :
    Executes s vs rs s' ↔ (s', rs) = performAll Invocation.perform vs s := by
  induction vs generalizing s rs with
  | nil =>
    constructor
    · intro hex
      cases hex
      rfl
    · intro heq
      cases heq
      exact .nil _
  | cons v vs ih =>
    constructor
    · intro hex
      cases hex with
      | cons hcall hret hrest =>
        obtain ⟨_, rfl, rfl⟩ := h.call_iff.mp ⟨hcall, hret⟩
        have htail := (ih h.tail).mp hrest
        rw [performAll, ← htail, ← perform_words h]
    · intro heq
      rw [performAll, Prod.mk.injEq] at heq
      obtain ⟨rfl, rfl⟩ := heq
      obtain ⟨hcall, hret⟩ := h.call_iff.mpr ⟨rfl, rfl, rfl⟩
      have hex := Executes.cons hcall hret ((ih h.tail).mpr rfl)
      rwa [← perform_words h] at hex

end

/-- In every state of a sequential run, calls of close, sig, chown, chmod and stat on
distinct live events may be executed in any order: every order is possible, gives each call
the same answer, and ends in the same state, with the same list, records, queues and tasks. -/
theorem calls_on_distinct_events_commute (mem : Addr → Event) (user : Task → UserMem)
    (xs : List Action) (s : State) (hrun : Run step SeqStep (doeventInit mem user) xs s)
    (vs : List Invocation) (hcallers : ∀ v ∈ vs, s.pc v.task = .user)
    (hlive : ∀ v ∈ vs, ∃ a ∈ s.eventlist, v.call.target = some (s.mem a).id)
    (hdistinct : (vs.map fun v => v.call.target).Nodup) (houtputs : vs.Pairwise OutputsApart) :
    ∃ (answer : Invocation → Answer) (s₁ : State), ∀ ws, ws.Perm vs → ∀ rs s',
      Executes s ws rs s' ↔ rs = ws.map answer ∧ s' = s₁ := by
  obtain ⟨hseq, hids⟩ := seqIds_run hrun (doeventInit_seqInv mem user) (doeventInit_idsInv mem user)
  have hready : Ready vs s := by
    refine ⟨hids, fun a ha b hb hab u hu hu' => hab ?_,
      fun v hv => ⟨hcallers v hv, onRq_of_user hseq.own (hcallers v hv)⟩, hlive, hdistinct, houtputs⟩
    exact (holds_unique (hseq.entries.queued u a ha hu).1 (hseq.entries.queued u b hb hu').1).2
  refine ⟨fun v => (v.perform s).2, (performAll Invocation.perform vs s).1, fun ws hp rs s' => ?_⟩
  have hws := hready.perm hp.symm
  rw [executes_iff hws, Prod.ext_iff, commuting_calls.results hws, commuting_calls.final hp hws]
  exact and_comm

/-- Two events, and task 1 asleep on the first one. -/
def twoEventsRun : List Action :=
  opens 0 rootCred 1 ++ opens 0 rootCred 2 ++ [.call 1 rootCred (.doeventwait 0)] ++ runs 1 7

/-- The first event is signalled, the second one is closed: in either order. -/
theorem calls_on_distinct_events_commute_two :
    ∃ s, Run step SeqStep boot twoEventsRun s ∧ (s.mem 1).queue = [1] ∧
      ∃ (answer : Invocation → Answer) (s₁ : State),
        Executes s [⟨0, rootCred, .doeventsig 0⟩, ⟨2, rootCred, .doeventclose 1⟩]
          [answer ⟨0, rootCred, .doeventsig 0⟩, answer ⟨2, rootCred, .doeventclose 1⟩] s₁ ∧
        Executes s [⟨2, rootCred, .doeventclose 1⟩, ⟨0, rootCred, .doeventsig 0⟩]
          [answer ⟨2, rootCred, .doeventclose 1⟩, answer ⟨0, rootCred, .doeventsig 0⟩] s₁ := by
  obtain ⟨s, hr, hi, ht⟩ := run_of_idle_test SeqStep twoEventsRun 3
    (seqStepTest 3)
    (fun s => decide ((s.mem 1).queue = [1] ∧ s.eventlist = [1, 2] ∧ (s.mem 1).id = 0 ∧
      (s.mem 2).id = 1 ∧ s.pc 0 = .user ∧ s.pc 2 = .user))
    (by decide) (boot_idleFrom 3) fun _ _ => seqStep_of_test
  obtain ⟨hqueue, hlist, hid, hid', hpc, hpc'⟩ := of_decide_eq_true ht
  obtain ⟨answer, s₁, h⟩ := calls_on_distinct_events_commute bootMem bootUser twoEventsRun s hr
    [⟨0, rootCred, .doeventsig 0⟩, ⟨2, rootCred, .doeventclose 1⟩] (by simp [hpc, hpc'])
    (by simp [Call.target, hlist, hid, hid']) (by simp [Call.target])
    (by simp [OutputsApart, Call.outputs])
  exact ⟨s, hr, hqueue, answer, s₁, (h _ (.refl _) _ _).mpr ⟨rfl, rfl⟩,
    (h _ (.swap _ _ _) _ _).mpr ⟨rfl, rfl⟩⟩

end DoEvent
