import DoEvent.Event
import DoEvent.Uaccess
import DoEvent.WaitQueue

/-!
# The eight calls as an interleaving machine

A task runs one call at a time. Its program counter `Pc` names the next atomic step: a
section under the reader-writer lock, an unlocked statement between two sections, one
step of the `wait_event_interruptible` expansion (`include/linux/wait.h`), or a wake-up.
`next` gives the step's effect on the shared state and the following program counter;
`apply` carries the effect out. Pointers to event records live in the program counters
and may outlive the record: memory that was passed to `kfree` keeps its contents until
`kmalloc` hands the address out again.
-/

namespace DoEvent

/-- A call with its arguments. `junk` is the value that the uninitialised local
`waitEvent` of chown, chmod and stat happens to hold on entry. -/
inductive Call where
  | doeventopen
  | doeventclose (eventID : Int32)
  | doeventwait (eventID : Int32)
  | doeventsig (eventID : Int32)
  | doeventinfo (num : Int32) (eventIDs : Option ℕ)
  | doeventchown (eventID : Int32) (UID GID : UInt32) (junk : Option Addr)
  | doeventchmod (eventID : Int32) (UIDFlag GIDFlag : Int32) (junk : Option Addr)
  | doeventstat (eventID : Int32) (p : StatPtrs) (junk : Option Addr)
  deriving DecidableEq, Repr

inductive Pc where
  | user
  | ret (r : Int)
  | openAlloc (c : Cred)
  | openWrite (c : Cred) (newevent : Addr)
  | openRet (newevent : Addr)
  | closeRead (c : Cred) (eventID : Int32)
  | closeActive (e : Addr)
  | closeWrite (e : Addr) (process : Bool)
  | closeKfree (e : Addr) (process : ℕ)
  | waitRead (c : Cred) (eventID : Int32)
  | waitReset (e : Addr)
  | waitTest (e : Addr)
  | waitPrepare (e : Addr)
  | waitRetest (e : Addr)
  | waitSignal (e : Addr)
  | waitSchedule (e : Addr)
  | waitAsleep (e : Addr)
  | waitFinish (e : Addr)
  | sigRead (c : Cred) (eventID : Int32)
  | sigActive (e : Addr)
  | sigWrite (e : Addr)
  | sigWake (e : Addr) (process : ℕ)
  | infoProbe (num : Int32) (eventIDs : Option ℕ)
  | infoRead (num : Int32) (eventIDs : Option ℕ)
  | infoCopy (num : Int32) (eventIDs : Option ℕ) (eventsarray : List Int32) (check : Int32)
  | chownRead (c : Cred) (eventID : Int32) (UID GID : UInt32) (junk : Option Addr)
  | chownWrite (c : Cred) (e : Addr) (UID GID : UInt32)
  | chmodRead (c : Cred) (eventID : Int32) (UIDFlag GIDFlag : Int32) (junk : Option Addr)
  | chmodWrite (c : Cred) (e : Addr) (UIDFlag GIDFlag : Int32)
  | statProbe (eventID : Int32) (p : StatPtrs) (junk : Option Addr)
  | statRead (eventID : Int32) (p : StatPtrs) (v : StatVals) (junk : Option Addr)
  | statCopy (p : StatPtrs) (v : StatVals)
  deriving DecidableEq, Repr

structure State where
  mem : Addr → Event
  inUse : Addr → Bool
  eventlist : List Addr
  sched : Task → Sched
  user : Task → UserMem
  pc : Task → Pc

/-- `doevent_init`, at boot; the rest of memory is arbitrary. -/
def doeventInit (mem : Addr → Event) (user : Task → UserMem) : State where
  mem := Function.update mem allevents { mem allevents with id := -1, queue := [] }
  inUse := fun a => a == allevents
  eventlist := []
  sched := fun _ => Sched.fresh
  user := user
  pc := fun _ => .user

def State.goto (s : State) (t : Task) (p : Pc) : State := { s with pc := Function.update s.pc t p }

def State.modify (s : State) (a : Addr) (f : Event → Event) : State :=
  { s with mem := Function.update s.mem a (f (s.mem a)) }

def State.setSched (s : State) (t : Task) (p : Sched) : State :=
  { s with sched := Function.update s.sched t p }

/-! ### Sections and wait-queue operations -/

/-- The node before the head of the ring: the last event, or the sentinel. -/
def lastEvent (s : State) : Addr := s.eventlist.getLast?.getD allevents

/-- The write section of `sys_doeventopen`. The record is one that `kmalloc` has just handed
out; as long as none is freed twice it is not in the list, where `list_add_tail` of a listed
node would spoil the ring instead of appending a second entry. -/
def openSection (s : State) (c : Cred) (newevent : Addr) : State :=
  -- `list_add_tail` comes first: `prev` of the new node is the node that was last before.
  let lastid := (s.mem (lastEvent s)).id
  { s with
    eventlist := s.eventlist ++ [newevent]
    mem := Function.update s.mem newevent
      { id := lastid + 1, uid := c.euid, gid := c.egid, uidFlag := 1, gidFlag := 1
        condition := 0, queue := [] } }

def wakeUpAll (s : State) (e : Addr) : State :=
  let r := wakeUpCommon (s.mem e).queue s.sched
  { s.modify e (fun v => { v with queue := r.1 }) with sched := r.2 }

/-- The write section of `sys_doeventclose`; `process` is what the unlocked test found. -/
def closeSection (s : State) (e : Addr) (process : Bool) : State :=
  let s' := if process then wakeUpAll (s.modify e fun v => { v with condition := 1 }) e else s
  { s' with eventlist := s'.eventlist.erase e }

def prepareToWait (s : State) (t : Task) (e : Addr) : State :=
  let p := s.sched t
  if p.linked then s.setSched t { p with state := .interruptible }
  else (s.modify e fun v => { v with queue := t :: v.queue }).setSched t
    { p with linked := true, state := .interruptible }

/-- The entry leaves the queue it was put on. If an open has taken over the record and reset
the queue head under a linked entry, `list_del_init` would cut the new queue off as well,
which is not modelled; statements about queues leave such runs out. -/
def finishWait (s : State) (t : Task) (e : Addr) : State :=
  let p := s.sched t
  if p.linked then (s.modify e fun v => { v with queue := v.queue.erase t }).setSched t
    { p with linked := false, state := .running }
  else s.setSched t { p with state := .running }

/-- The search loop of `sys_doeventstat`, which also saves the four values. -/
def statLoop (mem : Addr → Event) (eventID : Int32) :
    Option Addr → StatVals → List Addr → Option Addr × StatVals
  | waitEvent, v, [] => (waitEvent, v)
  | _, v, a :: rest =>
    if (mem a).id = eventID then
      (some a, ⟨(mem a).uid, (mem a).gid, (mem a).uidFlag, (mem a).gidFlag⟩)
    else statLoop mem eventID none v rest

/-- `eventsarray` before the locked loop of `sys_doeventinfo`. -/
def infoArray (num : Int32) : List Int32 := List.replicate num.toInt.toNat (-1)

/-! ### Steps -/

/-- What one step does to the state shared by the tasks. -/
inductive Effect where
  | skip
  | kmalloc (a : Addr)
  | kfree (a : Addr)
  | openSection (c : Cred) (a : Addr)
  | closeSection (a : Addr) (process : Bool)
  | setCondition (a : Addr) (v : Int32)
  | prepareToWait (a : Addr)
  | schedule
  | finishWait (a : Addr)
  | wakeUpAll (a : Addr)
  | setOwner (a : Addr) (UID GID : UInt32)
  | setFlags (a : Addr) (UIDFlag GIDFlag : Int32)
  | copyOut (m : UserMem)
  | posix
  | deliver

def apply (s : State) (t : Task) : Effect → State
  | .skip => s
  | .kmalloc a => { s with inUse := Function.update s.inUse a true }
  | .kfree a => { s with inUse := Function.update s.inUse a false }
  | .openSection c a => openSection s c a
  | .closeSection a process => closeSection s a process
  | .setCondition a v => s.modify a fun e => { e with condition := v }
  | .prepareToWait a => prepareToWait s t a
  | .schedule => s.setSched t (schedule (s.sched t))
  | .finishWait a => finishWait s t a
  | .wakeUpAll a => wakeUpAll s a
  | .setOwner a UID GID => s.modify a fun e => { e with uid := UID, gid := GID }
  | .setFlags a UIDFlag GIDFlag =>
    s.modify a fun e => { e with uidFlag := UIDFlag, gidFlag := GIDFlag }
  | .copyOut m => { s with user := Function.update s.user t m }
  | .posix => s.setSched t (signalWakeUp (s.sched t))
  | .deliver => s.setSched t { s.sched t with sigPending := false }

/-- The program counter of a task that has entered a call, after the argument checks
that read nothing shared. -/
def entry (c : Cred) : Call → Pc
  | .doeventopen => .openAlloc c
  | .doeventclose eventID => if isValidEventId eventID then .ret (-1) else .closeRead c eventID
  | .doeventwait eventID => if isValidEventId eventID then .ret (-1) else .waitRead c eventID
  | .doeventsig eventID => if isValidEventId eventID then .ret (-1) else .sigRead c eventID
  | .doeventinfo num eventIDs =>
    if num < 0 ∧ eventIDs ≠ none then .ret (-1) else .infoProbe num eventIDs
  | .doeventchown eventID UID GID junk =>
    -- The two comparisons are between unsigned numbers, as in the source.
    if isValidEventId eventID ∨ UID < 0 ∨ GID < 0 then .ret (-1)
    else .chownRead c eventID UID GID junk
  | .doeventchmod eventID UIDFlag GIDFlag junk =>
    if isValidEventId eventID then .ret (-1) else .chmodRead c eventID UIDFlag GIDFlag junk
  | .doeventstat eventID p junk => .statProbe eventID p junk

/-- The continuation of a read section: on to `k` with the validated pointer, or -1. -/
def orFail (p : Option Addr) (k : Addr → Pc) : Pc :=
  match p with
  | none => .ret (-1)
  | some e => k e

/-- The step of task `t` at a program counter. In user mode and in `kmalloc` the task
alone does not decide what happens next. -/
def next (s : State) (t : Task) : Pc → Option (Effect × Pc)
  | .user => none
  | .ret _ => some (.skip, .user)
  | .openAlloc _ => none
  | .openWrite c e => some (.openSection c e, .openRet e)
  | .openRet e => some (.skip, .ret (s.mem e).id.toInt)
  | .closeRead c eventID =>
    some (.skip, orFail (readSection s.mem s.eventlist c eventID) .closeActive)
  -- The test of the queue is made between the two locked sections.
  | .closeActive e => some (.skip, .closeWrite e (waitqueueActive (s.mem e)))
  | .closeWrite e process =>
    some (.closeSection e process,
      .closeKfree e (if process then countTasks (s.mem e).queue 0 else 0))
  | .closeKfree e process => some (.kfree e, .ret process)
  | .waitRead c eventID =>
    some (.skip, orFail (readSection s.mem s.eventlist c eventID) .waitReset)
  | .waitReset e => some (.setCondition e 0, .waitTest e)
  -- `wait_event_interruptible`, one step for each access to the record or to the task.
  | .waitTest e => some (.skip, if (s.mem e).condition ≠ 0 then .ret 1 else .waitPrepare e)
  | .waitPrepare e => some (.prepareToWait e, .waitRetest e)
  | .waitRetest e =>
    some (.skip, if (s.mem e).condition ≠ 0 then .waitFinish e else .waitSignal e)
  | .waitSignal e =>
    some (.skip, if (s.sched t).sigPending then .waitFinish e else .waitSchedule e)
  | .waitSchedule e => some (.schedule, .waitAsleep e)
  | .waitAsleep e => some (.skip, .waitPrepare e)
  -- The result of the macro, 0 or `-ERESTARTSYS`, is dropped.
  | .waitFinish e => some (.finishWait e, .ret 1)
  | .sigRead c eventID =>
    some (.skip, orFail (readSection s.mem s.eventlist c eventID) .sigActive)
  | .sigActive e => some (.skip, if waitqueueActive (s.mem e) then .sigWrite e else .ret 0)
  | .sigWrite e => some (.setCondition e 1, .sigWake e (countTasks (s.mem e).queue 0))
  -- Outside the lock, unlike in close.
  | .sigWake e process => some (.wakeUpAll e, .ret process)
  | .infoProbe num eventIDs =>
    some (.skip, if infoProbeFails (s.user t) eventIDs then .ret (-1) else .infoRead num eventIDs)
  | .infoRead num eventIDs =>
    let r := infoLoop s.mem num eventIDs.isSome s.eventlist (infoArray num) 0
    some (.skip, .infoCopy num eventIDs r.1 r.2)
  | .infoCopy num eventIDs eventsarray check =>
    let r := infoFinish (s.user t) num eventIDs eventsarray check
    some (.copyOut r.1, .ret r.2)
  | .chownRead c eventID UID GID junk =>
    some (.skip, orFail (readSectionUser s.mem s.eventlist c eventID junk)
      fun e => .chownWrite c e UID GID)
  -- The permission is not checked again under the write lock.
  | .chownWrite _ e UID GID => some (.setOwner e UID GID, .ret 0)
  | .chmodRead c eventID UIDFlag GIDFlag junk =>
    some (.skip, orFail (readSectionUser s.mem s.eventlist c eventID junk)
      fun e => .chmodWrite c e UIDFlag GIDFlag)
  | .chmodWrite _ e UIDFlag GIDFlag => some (.setFlags e UIDFlag GIDFlag, .ret 0)
  | .statProbe eventID p junk =>
    some (.skip, match statProbe (s.user t) p with
      | none => .ret (-1)
      | some v => if isValidEventId eventID then .ret (-1) else .statRead eventID p v junk)
  | .statRead eventID p v junk =>
    -- Over an empty list the cursor and the four locals stay as they were.
    let r := statLoop s.mem eventID junk v s.eventlist
    some (.skip, orFail r.1 fun _ => .statCopy p r.2)
  | .statCopy p v =>
    let r := statFinish (s.user t) p v
    some (.copyOut r.1, .ret r.2)

/-- Scheduler choices: a task in user mode makes a call, `kmalloc` answers, a task on the
run queue takes its next step, a POSIX signal becomes pending, a task in user mode takes
its pending signal. -/
inductive Action where
  | call (t : Task) (c : Cred) (k : Call)
  | kmalloc (t : Task) (r : Option Addr)
  | run (t : Task)
  | posix (t : Task)
  | deliver (t : Task)
  deriving DecidableEq, Repr

def Action.task : Action → Task
  | .call t _ _ | .kmalloc t _ | .run t | .posix t | .deliver t => t

/-- The answer of `kmalloc(sizeof(struct event), GFP_KERNEL)`: NULL or an unused address. After
a double `kfree` the allocator may hand out one address twice, which is not modelled. -/
def kmallocStep (s : State) (t : Task) (r : Option Addr) : Pc → Option State
  | .openAlloc c =>
    match r with
    | none => some (s.goto t (.ret (-1)))
    | some a =>
      if s.inUse a then none else some ((apply s t (.kmalloc a)).goto t (.openWrite c a))
  | _ => none

def step (s : State) : Action → Option State
  | .call t c k => if s.pc t = .user then some (s.goto t (entry c k)) else none
  | .kmalloc t r => kmallocStep s t r (s.pc t)
  | .run t =>
    if (s.sched t).onRq then (next s t (s.pc t)).map fun r => (apply s t r.1).goto t r.2 else none
  | .posix t => some (apply s t .posix)
  | .deliver t => if s.pc t = .user then some (apply s t .deliver) else none

/-! ### A concrete boot state -/

def bootMem : Addr → Event := fun _ => ⟨0, 0, 0, 0, 0, 0, []⟩

def bootUser : Task → UserMem := fun _ => ⟨fun _ => 0, fun _ => true, fun _ => true⟩

def boot : State := doeventInit bootMem bootUser

def rootCred : Cred := ⟨0, 0⟩

def runs (t : Task) (n : ℕ) : List Action := List.replicate n (.run t)

/-- Task `t` opens an event whose record `kmalloc` puts at `a`. -/
def opens (t : Task) (c : Cred) (a : Addr) : List Action :=
  [.call t c .doeventopen, .kmalloc t (some a)] ++ runs t 3

end DoEvent
