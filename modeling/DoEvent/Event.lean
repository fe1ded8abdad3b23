import Mathlib.Logic.Function.Basic
import Mathlib.Data.List.Nodup

/-!
# Event records, the search loop and the access checks (csc456/eventsyscalls.c)

`struct event` (`include/linux/event.h`) without its `eventlist` node: the ring of nodes
is kept as the list of record addresses, oldest first. The wait-queue head is kept as the
list of tasks whose entry is on `queue.task_list`, head first. C `int` is `Int32` and
`uid_t`, `gid_t` are `UInt32`, so that `lastid + 1` wraps as it does in the kernel.
-/

namespace DoEvent

/-- Kernel address of a `struct event`. -/
abbrev Addr := ℕ

abbrev Task := ℕ

/-- Address of the global `struct event allevents`, the sentinel of the list. -/
def allevents : Addr := 0

/-- The part of `current->cred` that the calls read. -/
structure Cred where
  euid : UInt32
  egid : UInt32
  deriving DecidableEq, Repr

structure Event where
  id : Int32
  uid : UInt32
  gid : UInt32
  uidFlag : Int32
  gidFlag : Int32
  condition : Int32
  queue : List Task
  deriving DecidableEq, Repr

/-- `isValidEventId`: true for the ids that are rejected. -/
def isValidEventId (eventId : Int32) : Bool := eventId < 0

theorem isValidEventId_iff {i : Int32} : isValidEventId i = true ↔ i < 0 := decide_eq_true_iff

/-- `validateEvent`; a NULL event is `none`. -/
def validateEvent (c : Cred) (userCheck : Bool) : Option Event → Bool
  | none => false
  | some e =>
    if userCheck then
      c.euid == 0 || (c.euid == e.uid && e.uidFlag == 1) || (c.egid == e.gid && e.gidFlag == 1)
    else true

def validateUserEvent (c : Cred) : Option Event → Bool
  | none => false
  | some e => c.euid == 0 || c.euid == e.uid

/-- The search loop of the id-taking calls: `list_for_each` over the event list with a
cursor `waitEvent` that is set to the record under it, kept on a match and reset to NULL
otherwise. A loop that runs zero times leaves the cursor as it was on entry. -/
def searchLoop (mem : Addr → Event) (eventID : Int32) : Option Addr → List Addr → Option Addr
  | waitEvent, [] => waitEvent
  | _, a :: rest => if (mem a).id = eventID then some a else searchLoop mem eventID none rest

/-- The read section of close, wait and sig, whose cursor starts as NULL. -/
def readSection (mem : Addr → Event) (l : List Addr) (c : Cred) (eventID : Int32) : Option Addr :=
  let waitEvent := searchLoop mem eventID none l
  if validateEvent c true (waitEvent.map mem) then waitEvent else none

/-- The read section of chown and chmod, whose cursor is uninitialised. -/
def readSectionUser (mem : Addr → Event) (l : List Addr) (c : Cred) (eventID : Int32)
    (junk : Option Addr) : Option Addr :=
  let waitEvent := searchLoop mem eventID junk l
  if validateUserEvent c (waitEvent.map mem) then waitEvent else none

/-- `waitqueue_active(&waitEvent->queue)`. -/
def waitqueueActive (e : Event) : Bool := !e.queue.isEmpty

/-- The counting loop over `queue.task_list`. -/
def countTasks : List Task → ℕ → ℕ
  | [], process => process
  | _ :: q, process => countTasks q (process + 1)

/-- `eventsarray[check] = id`. At a negative index, which a counter that has wrapped selects,
the store misses the array. -/
def setAt (eventsarray : List Int32) (check id : Int32) : List Int32 :=
  if 0 ≤ check then eventsarray.set check.toInt.toNat id else eventsarray

/-- The locked loop of `sys_doeventinfo`; `want` is `eventIDs != NULL`. The counter is an
`int` and wraps. -/
def infoLoop (mem : Addr → Event) (num : Int32) (want : Bool) :
    List Addr → List Int32 → Int32 → List Int32 × Int32
  | [], eventsarray, check => (eventsarray, check)
  | a :: rest, eventsarray, check =>
    infoLoop mem num want rest
      (if check < num ∧ want = true then setAt eventsarray check (mem a).id else eventsarray)
      (check + 1)

theorem countTasks_eq (q : List Task) (n : ℕ) : countTasks q n = n + q.length := by
  induction q generalizing n with
  | nil => rfl
  | cons t q ih =>
    rw [countTasks, ih, List.length_cons]
    omega

/-! ### The search loop -/

theorem searchLoop_null (mem : Addr → Event) (eventID : Int32) (l : List Addr) :
    searchLoop mem eventID none l = l.find? fun a => (mem a).id = eventID := by
  induction l with
  | nil => rfl
  | cons a l ih =>
    by_cases h : (mem a).id = eventID
    · simp [searchLoop, h]
    · simp [searchLoop, h, ih]

/-- Over a non-empty list the cursor's value on entry does not matter. -/
theorem searchLoop_junk (mem : Addr → Event) (eventID : Int32) (junk : Option Addr)
    {l : List Addr} (hl : l ≠ []) :
    searchLoop mem eventID junk l = searchLoop mem eventID none l := by
  cases l with
  | nil => exact absurd rfl hl
  | cons a l => rfl

theorem searchLoop_some {mem : Addr → Event} {eventID : Int32} {l : List Addr} {a : Addr}
    (h : searchLoop mem eventID none l = some a) : a ∈ l ∧ (mem a).id = eventID := by
  rw [searchLoop_null] at h
  exact ⟨List.mem_of_find?_eq_some h, by simpa using List.find?_some h⟩

theorem searchLoop_none {mem : Addr → Event} {eventID : Int32} {l : List Addr}
    (h : searchLoop mem eventID none l = none) : ∀ a ∈ l, (mem a).id ≠ eventID := by
  rw [searchLoop_null] at h
  intro a ha
  simpa using List.find?_eq_none.mp h a ha

theorem searchLoop_congr {mem mem' : Addr → Event} (eventID : Int32) (junk : Option Addr)
    {l : List Addr} (h : ∀ a ∈ l, (mem' a).id = (mem a).id) :
    searchLoop mem' eventID junk l = searchLoop mem eventID junk l := by
  induction l generalizing junk with
  | nil => rfl
  | cons a l ih =>
    have ha := h a (List.mem_cons_self ..)
    simp only [searchLoop, ha, ih none fun b hb => h b (List.mem_cons_of_mem _ hb)]

theorem searchLoop_append {mem mem' : Addr → Event} {i : Int32} {l l' : List Addr} {e : Addr}
    (h : searchLoop mem i none l = some e) (hmem : ∀ a ∈ l, (mem' a).id = (mem a).id) :
    searchLoop mem' i none (l ++ l') = some e := by
  rw [← searchLoop_congr i none hmem, searchLoop_null] at h
  rw [searchLoop_null, List.find?_append, h, Option.some_or]

theorem readSection_some {mem : Addr → Event} {l : List Addr} {c : Cred} {eventID : Int32}
    {a : Addr} (h : readSection mem l c eventID = some a) :
    a ∈ l ∧ (mem a).id = eventID ∧ validateEvent c true (some (mem a)) = true := by
  simp only [readSection] at h
  split_ifs at h with hv
  obtain ⟨hm, hi⟩ := searchLoop_some h
  rw [h] at hv
  exact ⟨hm, hi, hv⟩

theorem readSectionUser_some {mem : Addr → Event} {l : List Addr} {c : Cred} {eventID : Int32}
    {junk : Option Addr} {a : Addr} (hl : l ≠ [])
    (h : readSectionUser mem l c eventID junk = some a) :
    a ∈ l ∧ (mem a).id = eventID ∧ validateUserEvent c (some (mem a)) = true := by
  simp only [readSectionUser, searchLoop_junk mem eventID junk hl] at h
  split_ifs at h with hv
  obtain ⟨hm, hi⟩ := searchLoop_some h
  rw [h] at hv
  exact ⟨hm, hi, hv⟩

end DoEvent
