import DoEvent.Machine
import DoEvent.Shared.RwLock

/-!
# The eight calls, one memory access at a time

The same calls with the sections taken apart: `lock` is a reader-writer lock that a task
takes and releases in steps of their own, the event list is the ring of `eventlist` nodes,
and every load and store of a field or of a list pointer is one step. A sequence of stores
with no load between them is kept as the list of those still to be made. The wait queues
have a lock of their own in the kernel; they stay lists of tasks, and what is done to one
under its lock is one step.
-/

namespace DoEvent.Locked

open Shared

/-- `struct event` with its `eventlist` node. -/
structure Node extends Event where
  next : Addr
  prev : Addr
  deriving DecidableEq, Repr

inductive Store where
  | next (a : Addr)
  | prev (a : Addr)
  | id (x : Int32)
  | uid (x : UInt32)
  | gid (x : UInt32)
  | uidFlag (x : Int32)
  | gidFlag (x : Int32)
  | condition (x : Int32)
  | queue (q : List Task)
  deriving DecidableEq, Repr

def Node.store (n : Node) : Store → Node
  | .next a => { n with next := a }
  | .prev a => { n with prev := a }
  | .id x => { n with id := x }
  | .uid x => { n with uid := x }
  | .gid x => { n with gid := x }
  | .uidFlag x => { n with uidFlag := x }
  | .gidFlag x => { n with gidFlag := x }
  | .condition x => { n with condition := x }
  | .queue q => { n with queue := q }

/-- The fields of a record that the lock protects: all but the condition and the queue. -/
def Node.fixed (n : Node) : Int32 × UInt32 × UInt32 × Int32 × Int32 × Addr × Addr :=
  (n.id, n.uid, n.gid, n.uidFlag, n.gidFlag, n.next, n.prev)

/-- `INIT_LIST_HEAD(&entry->eventlist)`. -/
def initListHead (entry : Addr) : List (Addr × Store) :=
  [(entry, .next entry), (entry, .prev entry)]

/-- `__list_add`, which `list_add_tail(new, head)` calls with `head->prev` and `head`. -/
def listAdd (new prev next : Addr) : List (Addr × Store) :=
  [(next, .prev new), (new, .next next), (new, .prev prev), (prev, .next new)]

/-- `list_del_init(entry)` after the loads of `entry->prev` and `entry->next`. -/
def listDelInit (entry prev next : Addr) : List (Addr × Store) :=
  [(next, .prev prev), (prev, .next next)] ++ initListHead entry

/-- The stores of `sys_doeventopen` after the load of the last event's id. -/
def openFields (c : Cred) (newevent : Addr) (lastid : Int32) : List (Addr × Store) :=
  [(newevent, .id (lastid + 1)), (newevent, .uidFlag 1), (newevent, .gidFlag 1),
    (newevent, .uid c.euid), (newevent, .gid c.egid), (newevent, .queue []),
    (newevent, .condition 0)]

inductive Change where
  | owner (UID GID : UInt32)
  | flags (UIDFlag GIDFlag : Int32)
  deriving DecidableEq, Repr

def Change.stores (e : Addr) : Change → List (Addr × Store)
  | .owner UID GID => [(e, .uid UID), (e, .gid GID)]
  | .flags UIDFlag GIDFlag => [(e, .uidFlag UIDFlag), (e, .gidFlag GIDFlag)]

/-- The calls that `validateEvent` decides about. -/
inductive Aim where
  | close
  | wait
  | sig
  deriving DecidableEq, Repr

/-- On whose behalf the list is searched. -/
inductive Lookup where
  | access (aim : Aim) (c : Cred)
  | change (c : Cred) (w : Change)
  | stat (p : StatPtrs) (v : StatVals)
  deriving DecidableEq, Repr

/-- Which sequence of stores a task is in. -/
inductive Storing where
  | initListHead (c : Cred) (newevent : Addr)
  | listAdd (c : Cred) (newevent : Addr)
  | openFields (newevent : Addr)
  | setCondition (e : Addr) (process : ℕ)
  | sigCondition (e : Addr) (process : ℕ)
  | listDelInit (e : Addr) (process : ℕ)
  | change
  deriving DecidableEq, Repr

inductive Pc where
  | user
  | ret (r : Int)
  | stores (todo : List (Addr × Store)) (k : Storing)
  | openAlloc (c : Cred)
  | openLock (c : Cred) (newevent : Addr)
  | openPrev (c : Cred) (newevent : Addr)
  | openLast (c : Cred) (newevent : Addr)
  | openLastid (c : Cred) (newevent last : Addr)
  | openUnlock (newevent : Addr)
  | openRet (newevent : Addr)
  | searchLock (k : Lookup) (eventID : Int32) (waitEvent : Option Addr)
  | searchFirst (k : Lookup) (eventID : Int32) (waitEvent : Option Addr)
  | searchId (k : Lookup) (eventID : Int32) (pos : Addr)
  | searchNext (k : Lookup) (eventID : Int32) (pos : Addr)
  | failUnlock
  | checkUid (aim : Aim) (c : Cred) (e : Addr)
  | checkUidFlag (aim : Aim) (c : Cred) (e : Addr)
  | checkGid (aim : Aim) (c : Cred) (e : Addr)
  | checkGidFlag (aim : Aim) (c : Cred) (e : Addr)
  | granted (aim : Aim) (e : Addr)
  | closeActive (e : Addr)
  | closeLock (e : Addr) (process : Bool)
  | closeCount (e : Addr) (process : ℕ)
  | closeWake (e : Addr) (process : ℕ)
  | closePrev (e : Addr) (process : ℕ)
  | closeNext (e : Addr) (process : ℕ) (prev : Addr)
  | closeUnlock (e : Addr) (process : ℕ)
  | closeKfree (e : Addr) (process : ℕ)
  | waitReset (e : Addr)
  | waitTest (e : Addr)
  | waitPrepare (e : Addr)
  | waitRetest (e : Addr)
  | waitSignal (e : Addr)
  | waitSchedule (e : Addr)
  | waitAsleep (e : Addr)
  | waitFinish (e : Addr)
  | sigActive (e : Addr)
  | sigLock (e : Addr)
  | sigCount (e : Addr) (process : ℕ)
  | sigUnlock (e : Addr) (process : ℕ)
  | sigWake (e : Addr) (process : ℕ)
  | checkOwner (c : Cred) (w : Change) (e : Addr)
  | changeFound (w : Change) (e : Addr)
  | changeLock (w : Change) (e : Addr)
  | changeUnlock
  | statProbe (eventID : Int32) (p : StatPtrs) (junk : Option Addr)
  | statUid (eventID : Int32) (p : StatPtrs) (v : StatVals) (e : Addr)
  | statGid (eventID : Int32) (p : StatPtrs) (v : StatVals) (e : Addr)
  | statUidFlag (eventID : Int32) (p : StatPtrs) (v : StatVals) (e : Addr)
  | statGidFlag (eventID : Int32) (p : StatPtrs) (v : StatVals) (e : Addr)
  | statUnlock (eventID : Int32) (p : StatPtrs) (v : StatVals) (waitEvent : Option Addr)
  | statCopy (p : StatPtrs) (v : StatVals)
  | infoProbe (num : Int32) (eventIDs : Option ℕ)
  | infoLock (num : Int32) (eventIDs : Option ℕ)
  | infoFirst (num : Int32) (eventIDs : Option ℕ)
  | infoId (num : Int32) (eventIDs : Option ℕ) (eventsarray : List Int32) (check : Int32) (pos : Addr)
  | infoNext (num : Int32) (eventIDs : Option ℕ) (eventsarray : List Int32) (check : Int32) (pos : Addr)
  | infoUnlock (num : Int32) (eventIDs : Option ℕ) (eventsarray : List Int32) (check : Int32)
  | infoCopy (num : Int32) (eventIDs : Option ℕ) (eventsarray : List Int32) (check : Int32)
  deriving DecidableEq, Repr

structure State where
  node : Addr → Node
  inUse : Addr → Bool
  lock : RwLock Task
  sched : Task → Sched
  user : Task → UserMem
  pc : Task → Pc

/-- `doevent_init`, at boot; the rest of memory is arbitrary. -/
def doeventInit (node : Addr → Node) (user : Task → UserMem) : State where
  node := Function.update node allevents
    { node allevents with id := -1, queue := [], next := allevents, prev := allevents }
  inUse := fun a => a == allevents
  lock := .shared []
  sched := fun _ => Sched.fresh
  user := user
  pc := fun _ => .user

def State.goto (s : State) (t : Task) (p : Pc) : State := { s with pc := Function.update s.pc t p }

def storeAt (node : Addr → Node) (w : Addr × Store) : Addr → Node :=
  Function.update node w.1 ((node w.1).store w.2)

def State.setSched (s : State) (t : Task) (p : Sched) : State :=
  { s with sched := Function.update s.sched t p }

/-! ### Wait-queue operations -/

def wakeUpAll (s : State) (e : Addr) : State :=
  let r := wakeUpCommon (s.node e).queue s.sched
  { s with node := storeAt s.node (e, .queue r.1), sched := r.2 }

def prepareToWait (s : State) (t : Task) (e : Addr) : State :=
  let p := s.sched t
  if p.linked then s.setSched t { p with state := .interruptible }
  else { s with node := storeAt s.node (e, .queue (t :: (s.node e).queue)) }.setSched t
    { p with linked := true, state := .interruptible }

def finishWait (s : State) (t : Task) (e : Addr) : State :=
  let p := s.sched t
  if p.linked then { s with node := storeAt s.node (e, .queue ((s.node e).queue.erase t)) }.setSched t
    { p with linked := false, state := .running }
  else s.setSched t { p with state := .running }

/-! ### Steps -/

def entry (c : Cred) : Call → Pc
  | .doeventopen => .openAlloc c
  | .doeventclose eventID =>
    if isValidEventId eventID then .ret (-1) else .searchLock (.access .close c) eventID none
  | .doeventwait eventID =>
    if isValidEventId eventID then .ret (-1) else .searchLock (.access .wait c) eventID none
  | .doeventsig eventID =>
    if isValidEventId eventID then .ret (-1) else .searchLock (.access .sig c) eventID none
  | .doeventinfo num eventIDs =>
    if num < 0 ∧ eventIDs ≠ none then .ret (-1) else .infoProbe num eventIDs
  | .doeventchown eventID UID GID junk =>
    if isValidEventId eventID ∨ UID < 0 ∨ GID < 0 then .ret (-1)
    else .searchLock (.change c (.owner UID GID)) eventID junk
  | .doeventchmod eventID UIDFlag GIDFlag junk =>
    if isValidEventId eventID then .ret (-1)
    else .searchLock (.change c (.flags UIDFlag GIDFlag)) eventID junk
  | .doeventstat eventID p junk => .statProbe eventID p junk

def Storing.done : Storing → Pc
  | .initListHead c a => .openLock c a
  | .listAdd c a => .openLast c a
  | .openFields a => .openUnlock a
  | .setCondition e process => .closeWake e process
  | .sigCondition e process => .sigUnlock e process
  | .listDelInit e process => .closeUnlock e process
  | .change => .changeUnlock

/-- After the search loop: `validateEvent(1, waitEvent)` in close, wait and sig and
`validateUserEvent(waitEvent)` in chown and chmod, neither of which reads a field for root;
the release of the lock in stat. -/
def Lookup.exit (k : Lookup) (eventID : Int32) (waitEvent : Option Addr) : Pc :=
  match k, waitEvent with
  | .access aim c, some e => if c.euid = 0 then .granted aim e else .checkUid aim c e
  | .change c w, some e => if c.euid = 0 then .changeFound w e else .checkOwner c w e
  | .access _ _, none | .change _ _, none => .failUnlock
  | .stat p v, waitEvent => .statUnlock eventID p v waitEvent

/-- What the call does with the event after the read lock has been released. -/
def Aim.go : Aim → Addr → Pc
  | .close, e => .closeActive e
  | .wait, e => .waitReset e
  | .sig, e => .sigActive e

/-- The loop test `pos != head`. -/
def Lookup.loopTest (k : Lookup) (eventID : Int32) (waitEvent : Option Addr) (pos : Addr) : Pc :=
  if pos = allevents then k.exit eventID waitEvent else .searchId k eventID pos

/-- The loop body on a match; stat saves the four values before it leaves the loop. -/
def Lookup.found (k : Lookup) (eventID : Int32) (pos : Addr) : Pc :=
  match k with
  | .stat p v => .statUid eventID p v pos
  | k => k.exit eventID (some pos)

/-- The loop test and the first test of the body of the loop of `sys_doeventinfo`. -/
def infoTest (num : Int32) (eventIDs : Option ℕ) (eventsarray : List Int32) (check : Int32)
    (pos : Addr) : Pc :=
  if pos = allevents then .infoUnlock num eventIDs eventsarray check
  else if check < num ∧ eventIDs.isSome = true then
    .infoId num eventIDs eventsarray check pos
  else .infoNext num eventIDs eventsarray (check + 1) pos

inductive Effect where
  | skip
  | kfree (a : Addr)
  | readLock
  | readUnlock
  | writeLock
  | writeUnlock
  | store (w : Addr × Store)
  | prepareToWait (a : Addr)
  | schedule
  | finishWait (a : Addr)
  | wakeUpAll (a : Addr)
  | copyOut (m : UserMem)

/-- A lock that cannot be taken leaves the task where it is. -/
def apply (s : State) (t : Task) : Effect → Option State
  | .skip => some s
  | .kfree a => some { s with inUse := Function.update s.inUse a false }
  | .readLock => (s.lock.readLock t).map fun k => { s with lock := k }
  | .readUnlock => some { s with lock := s.lock.readUnlock t }
  | .writeLock => (s.lock.writeLock t).map fun k => { s with lock := k }
  | .writeUnlock => some { s with lock := s.lock.writeUnlock }
  | .store w => some { s with node := storeAt s.node w }
  | .prepareToWait a => some (prepareToWait s t a)
  | .schedule => some (s.setSched t (schedule (s.sched t)))
  | .finishWait a => some (finishWait s t a)
  | .wakeUpAll a => some (wakeUpAll s a)
  | .copyOut m => some { s with user := Function.update s.user t m }

/-- The step of task `t` at a program counter: the loads it makes are those of `s.node`. -/
def next (s : State) (t : Task) : Pc → Option (Effect × Pc)
  | .user => none
  | .ret _ => some (.skip, .user)
  | .stores [] k => some (.skip, k.done)
  | .stores (w :: todo) k => some (.store w, .stores todo k)
  | .openAlloc _ => none
  | .openLock c a => some (.writeLock, .openPrev c a)
  | .openPrev c a =>
    some (.skip, .stores (listAdd a (s.node allevents).prev allevents) (.listAdd c a))
  | .openLast c a => some (.skip, .openLastid c a (s.node a).prev)
  | .openLastid c a last => some (.skip, .stores (openFields c a (s.node last).id) (.openFields a))
  | .openUnlock a => some (.writeUnlock, .openRet a)
  -- The id is read once more after the lock has been released.
  | .openRet a => some (.skip, .ret (s.node a).id.toInt)
  | .searchLock k i w => some (.readLock, .searchFirst k i w)
  | .searchFirst k i w => some (.skip, k.loopTest i w (s.node allevents).next)
  | .searchId k i pos =>
    some (.skip, if (s.node pos).id = i then k.found i pos else .searchNext k i pos)
  -- The cursor was reset to NULL when the ids differed.
  | .searchNext k i pos => some (.skip, k.loopTest i none (s.node pos).next)
  | .failUnlock => some (.readUnlock, .ret (-1))
  -- The conditions of `validateEvent`, from left to right.
  | .checkUid aim c e =>
    some (.skip, if c.euid = (s.node e).uid then .checkUidFlag aim c e else .checkGid aim c e)
  | .checkUidFlag aim c e =>
    some (.skip, if (s.node e).uidFlag = 1 then .granted aim e else .checkGid aim c e)
  | .checkGid aim c e =>
    some (.skip, if c.egid = (s.node e).gid then .checkGidFlag aim c e else .failUnlock)
  | .checkGidFlag aim _ e =>
    some (.skip, if (s.node e).gidFlag = 1 then .granted aim e else .failUnlock)
  | .granted aim e => some (.readUnlock, aim.go e)
  | .closeActive e => some (.skip, .closeLock e (waitqueueActive (s.node e).toEvent))
  | .closeLock e process =>
    some (.writeLock, if process then .closeCount e 0 else .closePrev e 0)
  | .closeCount e n =>
    some (.skip, if n < (s.node e).queue.length then .closeCount e (n + 1)
      else .stores [(e, .condition 1)] (.setCondition e n))
  | .closeWake e n => some (.wakeUpAll e, .closePrev e n)
  | .closePrev e n => some (.skip, .closeNext e n (s.node e).prev)
  | .closeNext e n prev =>
    some (.skip, .stores (listDelInit e prev (s.node e).next) (.listDelInit e n))
  | .closeUnlock e n => some (.writeUnlock, .closeKfree e n)
  | .closeKfree e n => some (.kfree e, .ret n)
  | .waitReset e => some (.store (e, .condition 0), .waitTest e)
  | .waitTest e => some (.skip, if (s.node e).condition ≠ 0 then .ret 1 else .waitPrepare e)
  | .waitPrepare e => some (.prepareToWait e, .waitRetest e)
  | .waitRetest e =>
    some (.skip, if (s.node e).condition ≠ 0 then .waitFinish e else .waitSignal e)
  | .waitSignal e =>
    some (.skip, if (s.sched t).sigPending then .waitFinish e else .waitSchedule e)
  | .waitSchedule e => some (.schedule, .waitAsleep e)
  | .waitAsleep e => some (.skip, .waitPrepare e)
  | .waitFinish e => some (.finishWait e, .ret 1)
  | .sigActive e =>
    some (.skip, if waitqueueActive (s.node e).toEvent then .sigLock e else .ret 0)
  | .sigLock e => some (.writeLock, .sigCount e 0)
  | .sigCount e n =>
    some (.skip, if n < (s.node e).queue.length then .sigCount e (n + 1)
      else .stores [(e, .condition 1)] (.sigCondition e n))
  | .sigUnlock e n => some (.writeUnlock, .sigWake e n)
  | .sigWake e n => some (.wakeUpAll e, .ret n)
  | .checkOwner c w e =>
    some (.skip, if c.euid = (s.node e).uid then .changeFound w e else .failUnlock)
  | .changeFound w e => some (.readUnlock, .changeLock w e)
  | .changeLock w e => some (.writeLock, .stores (w.stores e) .change)
  | .changeUnlock => some (.writeUnlock, .ret 0)
  | .statProbe i p junk =>
    some (.skip, match statProbe (s.user t) p with
      | none => .ret (-1)
      | some v => if isValidEventId i then .ret (-1) else .searchLock (.stat p v) i junk)
  | .statUid i p v e => some (.skip, .statGid i p { v with uid := (s.node e).uid } e)
  | .statGid i p v e => some (.skip, .statUidFlag i p { v with gid := (s.node e).gid } e)
  | .statUidFlag i p v e =>
    some (.skip, .statGidFlag i p { v with uidFlag := (s.node e).uidFlag } e)
  | .statGidFlag i p v e =>
    some (.skip, .statUnlock i p { v with gidFlag := (s.node e).gidFlag } (some e))
  | .statUnlock _ p v w => some (.readUnlock, if w = none then .ret (-1) else .statCopy p v)
  | .statCopy p v =>
    let r := statFinish (s.user t) p v
    some (.copyOut r.1, .ret r.2)
  | .infoProbe num q =>
    some (.skip, if infoProbeFails (s.user t) q then .ret (-1) else .infoLock num q)
  | .infoLock num q => some (.readLock, .infoFirst num q)
  | .infoFirst num q => some (.skip, infoTest num q (infoArray num) 0 (s.node allevents).next)
  | .infoId num q arr check pos =>
    some (.skip, .infoNext num q (setAt arr check (s.node pos).id) (check + 1) pos)
  | .infoNext num q arr check pos => some (.skip, infoTest num q arr check (s.node pos).next)
  | .infoUnlock num q arr check => some (.readUnlock, .infoCopy num q arr check)
  | .infoCopy num q arr check =>
    let r := infoFinish (s.user t) num q arr check
    some (.copyOut r.1, .ret r.2)

def kmallocStep (s : State) (t : Task) (r : Option Addr) : Pc → Option State
  | .openAlloc c =>
    match r with
    | none => some (s.goto t (.ret (-1)))
    | some a =>
      if s.inUse a then none
      else some ({ s with inUse := Function.update s.inUse a true }.goto t
        (.stores (initListHead a) (.initListHead c a)))
  | _ => none

def step (s : State) : Action → Option State
  | .call t c k => if s.pc t = .user then some (s.goto t (entry c k)) else none
  | .kmalloc t r => kmallocStep s t r (s.pc t)
  | .run t =>
    if (s.sched t).onRq then
      (next s t (s.pc t)).bind fun r => (apply s t r.1).map fun s' => s'.goto t r.2
    else none
  | .posix t => some (s.setSched t (signalWakeUp (s.sched t)))
  | .deliver t =>
    if s.pc t = .user then some (s.setSched t { s.sched t with sigPending := false }) else none

inductive Move (s : State) : Action → State → Prop where
  | call (t : Task) (c : Cred) (k : Call) (hpc : s.pc t = .user) :
      Move s (.call t c k) (s.goto t (entry c k))
  | nomem (t : Task) (c : Cred) (hpc : s.pc t = .openAlloc c) :
      Move s (.kmalloc t none) (s.goto t (.ret (-1)))
  | kmalloc (t : Task) (c : Cred) (a : Addr) (hpc : s.pc t = .openAlloc c)
      (hfree : s.inUse a = false) :
      Move s (.kmalloc t (some a)) ({ s with inUse := Function.update s.inUse a true }.goto t
        (.stores (initListHead a) (.initListHead c a)))
  | run (t : Task) (e : Effect) (p : Pc) (m : State) (hrq : (s.sched t).onRq = true)
      (hnext : next s t (s.pc t) = some (e, p)) (happly : apply s t e = some m) :
      Move s (.run t) (m.goto t p)
  | posix (t : Task) : Move s (.posix t) (s.setSched t (signalWakeUp (s.sched t)))
  | deliver (t : Task) (hpc : s.pc t = .user) :
      Move s (.deliver t) (s.setSched t { s.sched t with sigPending := false })

theorem Move.of_step {s s' : State} {x : Action} (h : step s x = some s') : Move s x s' := by
  cases x with
  | call t c k =>
    simp only [step] at h
    split at h
    next hpc =>
      cases h
      exact .call t c k hpc
    next => cases h
  | kmalloc t r =>
    simp only [step] at h
    generalize hpc : s.pc t = q at h
    cases q with
    | openAlloc c =>
      cases r with
      | none =>
        cases h
        exact .nomem t c hpc
      | some a =>
        simp only [kmallocStep] at h
        split at h
        next => cases h
        next hfree =>
          cases h
          exact .kmalloc t c a hpc (by simpa using hfree)
    | _ => cases h
  | run t =>
    simp only [step] at h
    split at h
    next hrq =>
      obtain ⟨r, hnext, hr⟩ := Option.bind_eq_some_iff.mp h
      obtain ⟨m, happly, rfl⟩ := Option.map_eq_some_iff.mp hr
      exact .run t r.1 r.2 m hrq hnext happly
    next => cases h
  | posix t =>
    cases h
    exact .posix t
  | deliver t =>
    simp only [step] at h
    split at h
    next hpc =>
      cases h
      exact .deliver t hpc
    next => cases h

section
variable {s m : State} {t u : Task} {p : Pc}

@[simp] theorem goto_user : (s.goto t p).user = s.user := rfl

@[simp] theorem goto_pc : (s.goto t p).pc t = p := Function.update_self ..

theorem goto_pc_of_ne (hu : u ≠ t) : (s.goto t p).pc u = s.pc u := Function.update_of_ne hu ..

theorem onRq_setSched {v : Sched} (h : (s.sched u).onRq = true)
    (hv : (s.sched t).onRq = true → v.onRq = true) : ((s.setSched t v).sched u).onRq = true := by
  show (Function.update s.sched t v u).onRq = true
  by_cases hu : u = t
  · subst hu
    rw [Function.update_self]
    exact hv h
  · rw [Function.update_of_ne hu]
    exact h

end

theorem storeAt_of_ne (node : Addr → Node) (w : Addr × Store) {a : Addr} (h : a ≠ w.1) :
    storeAt node w a = node a := Function.update_of_ne h ..

theorem fixed_storeAt (node : Addr → Node) {e : Addr} {w : Store}
    (hw : ∀ n : Node, (n.store w).fixed = n.fixed) (a : Addr) :
    (storeAt node (e, w) a).fixed = (node a).fixed := by
  by_cases ha : a = e
  · subst ha
    rw [storeAt, Function.update_self]
    exact hw _
  · rw [storeAt_of_ne node (e, w) ha]

/-! ### What a step leaves alone -/

def Effect.isLock : Effect → Bool
  | .readLock | .readUnlock | .writeLock | .writeUnlock => true
  | _ => false

structure Effect.Keeps (e : Effect) (s : State) (t : Task) (m : State) : Prop where
  pc : m.pc = s.pc
  lock : e.isLock = false → m.lock = s.lock
  inUse : (∀ a, e ≠ .kfree a) → m.inUse = s.inUse
  fixed : (∀ w, e ≠ .store w) → ∀ a, (m.node a).fixed = (s.node a).fixed
  user : m.user = match e with
    | .copyOut u => Function.update s.user t u
    | _ => s.user
  onRq : ∀ u, (s.sched u).onRq = true → (e = .schedule → u ≠ t) → (m.sched u).onRq = true

section
variable {s m : State} {t u : Task} {e : Effect}

theorem apply_keeps (h : apply s t e = some m) : e.Keeps s t m := by
  cases e with
  | readLock | writeLock =>
    obtain ⟨k, _, rfl⟩ := Option.map_eq_some_iff.mp h
    exact ⟨rfl, fun hl => (by cases hl), fun _ => rfl, fun _ _ => rfl, rfl, fun _ hu _ => hu⟩
  | readUnlock | writeUnlock =>
    cases h
    exact ⟨rfl, fun hl => (by cases hl), fun _ => rfl, fun _ _ => rfl, rfl, fun _ hu _ => hu⟩
  | skip | copyOut v =>
    cases h
    exact ⟨rfl, fun _ => rfl, fun _ => rfl, fun _ _ => rfl, rfl, fun _ hu _ => hu⟩
  | kfree a =>
    cases h
    exact ⟨rfl, fun _ => rfl, fun hn => absurd rfl (hn a), fun _ _ => rfl, rfl, fun _ hu _ => hu⟩
  | store w =>
    cases h
    exact ⟨rfl, fun _ => rfl, fun _ => rfl, fun hn => absurd rfl (hn w), rfl, fun _ hu _ => hu⟩
  | schedule =>
    cases h
    refine ⟨rfl, fun _ => rfl, fun _ => rfl, fun _ _ => rfl, rfl, fun u hu hne => ?_⟩
    show (Function.update s.sched t _ u).onRq = true
    rw [Function.update_of_ne (hne rfl)]
    exact hu
  | prepareToWait a | finishWait a =>
    cases h
    simp only [prepareToWait, finishWait]
    split
    all_goals
      refine ⟨rfl, fun _ => rfl, fun _ => rfl, fun _ => ?_, rfl, fun u hu _ => onRq_setSched hu id⟩
      first
      | exact fun _ => rfl
      | exact fixed_storeAt s.node fun _ => rfl
  | wakeUpAll a =>
    cases h
    refine ⟨rfl, fun _ => rfl, fun _ => rfl, fun _ => fixed_storeAt s.node fun _ => rfl, rfl, ?_⟩
    intro u hu _
    simp only [wakeUpAll, wakeUpCommon_sched]
    split
    · exact onRq_wake hu
    · exact hu

theorem apply_pc (h : apply s t e = some m) : m.pc = s.pc := (apply_keeps h).pc

theorem Move.pc_of_ne {x : Action} (h : Move s x m) (hu : u ≠ x.task) : m.pc u = s.pc u := by
  cases h with
  | call | nomem | kmalloc => exact goto_pc_of_ne hu
  | run t e p m hrq hnext happly => exact (goto_pc_of_ne hu).trans (congrFun (apply_pc happly) u)
  | posix | deliver => rfl

end

end DoEvent.Locked
