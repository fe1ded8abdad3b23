import DoEvent.WaitQueue
import DoEvent.Shared.Ring
import DoEvent.Transition.Run

/-!
# The wait queue of one event, one memory access at a time

`sys_doeventwait` and `sys_doeventsig` on one event, from where the lookup has returned its
record, with the wait queue taken apart (include/linux/wait.h, kernel/wait.c,
kernel/sched.c). The queue is the ring through `queue.task_list` and the entries `__wait`,
each of which lies on the stack of its task: what is there before `DEFINE_WAIT` and after
the return of the call is whatever the task left, and may change at any time. `queue.lock`
is taken and released in steps of their own. `__list_add` is that of lib/list_debug.c, which
looks at two links before it stores. The count of the waiting tasks and `finish_wait`'s first
test look at links without the lock. The record itself stays allocated.

The field `linked` of `Sched` is not used here: the pointers of an entry say it.
-/

namespace DoEvent.Queue

open Shared
open Links (Store linkStores unlinkStores)

/-- A `struct list_head`: that of the queue, or that of the entry of a task. -/
inductive ListHead where
  | taskList
  | entry (t : Task)
  deriving DecidableEq, Repr

/-- `INIT_LIST_HEAD`, and the initialiser of `DEFINE_WAIT`. -/
def initListHead (a : ListHead) : List (Store ListHead) := [.next a a, .prev a a]

/-- On whose behalf `list_del_init` takes an entry off the queue: `finish_wait` for its own
task, or `autoremove_wake_function` for the task `curr` in the loop of `__wake_up_common`,
which goes on with `next`. -/
inductive Delete where
  | finish
  | autoremove (process : ℕ) (curr : Task) (next : ListHead)
  deriving DecidableEq, Repr

def Delete.task (t : Task) : Delete → Task
  | .finish => t
  | .autoremove _ curr _ => curr

/-- Which sequence of stores a task is in. -/
inductive Storing where
  | defineWait
  | listAdd
  | listDelInit (d : Delete)
  deriving DecidableEq, Repr

inductive Pc where
  | user
  | ret (r : ℕ)
  | stores (todo : List (Store ListHead)) (k : Storing)
  | waitReset
  | waitTest
  | prepareLock
  | prepareEmpty
  | prepareHead
  | prepareWarnPrev (next : ListHead)
  | prepareWarnNext (next : ListHead)
  | prepareState
  | prepareUnlock
  | waitRetest
  | waitSignal
  | waitSchedule
  | waitAsleep
  | finishState
  | finishNext
  | finishPrev
  | finishLock
  | finishUnlock
  | deletePrev (d : Delete)
  | deleteNext (d : Delete) (prev : ListHead)
  | sigActive
  | sigFirst
  | sigNext (pos : ListHead) (process : ℕ)
  | sigCondition (process : ℕ)
  | wakeLock (process : ℕ)
  | wakeFirst (process : ℕ)
  | wakeNext (process : ℕ) (curr : ListHead)
  | wakeFunc (process : ℕ) (curr : Task) (next : ListHead)
  | wakeUnlock (process : ℕ)
  deriving DecidableEq, Repr

structure State where
  links : Links ListHead
  lock : Option Task
  condition : Int32
  sched : Task → Sched
  warned : Bool
  pc : Task → Pc

/-- After `init_waitqueue_head`; the stacks hold anything. -/
def init (links : Links ListHead) : State where
  links := (links.setNext .taskList .taskList).setPrev .taskList .taskList
  lock := none
  condition := 0
  sched := fun _ => Sched.fresh
  warned := false
  pc := fun _ => .user

def State.goto (s : State) (t : Task) (p : Pc) : State := { s with pc := Function.update s.pc t p }

def State.setSched (s : State) (t : Task) (p : Sched) : State :=
  { s with sched := Function.update s.sched t p }

@[simp] theorem goto_links (s : State) (t : Task) (p : Pc) : (s.goto t p).links = s.links := rfl

@[simp] theorem goto_lock (s : State) (t : Task) (p : Pc) : (s.goto t p).lock = s.lock := rfl

@[simp] theorem goto_sched (s : State) (t : Task) (p : Pc) : (s.goto t p).sched = s.sched := rfl

theorem goto_self (s : State) (t : Task) (p : Pc) : (s.goto t p).pc t = p := Function.update_self ..

theorem goto_of_ne (s : State) (p : Pc) {t u : Task} (h : u ≠ t) : (s.goto t p).pc u = s.pc u :=
  Function.update_of_ne h ..

/-! ### Steps -/

def Storing.done : Storing → Pc
  | .defineWait => .prepareLock
  | .listAdd => .prepareState
  | .listDelInit .finish => .finishUnlock
  | .listDelInit (.autoremove process _ next) => .wakeNext process next

/-- The test and the body of `list_for_each(j, &waitEvent->queue.task_list) process++`. -/
def sigLoop (pos : ListHead) (process : ℕ) : Pc :=
  if pos = .taskList then .sigCondition process else .sigNext pos (process + 1)

inductive Effect where
  | skip
  | store (w : Store ListHead)
  | lock
  | unlock
  | setCondition (v : Int32)
  | setState (r : RunState)
  | schedule
  | tryToWakeUp (p : Task)
  | warn

/-- A lock that is taken leaves the task where it is. -/
def apply (s : State) (t : Task) : Effect → Option State
  | .skip => some s
  | .store w => some { s with links := s.links.store w }
  | .lock => if s.lock = none then some { s with lock := some t } else none
  | .unlock => some { s with lock := none }
  | .setCondition v => some { s with condition := v }
  | .setState r => some (s.setSched t { s.sched t with state := r })
  | .schedule => some (s.setSched t (schedule (s.sched t)))
  | .tryToWakeUp p => some (s.setSched p (tryToWakeUp (s.sched p)).1)
  | .warn => some { s with warned := true }

/-- The step of task `t` at a program counter: the loads it makes are those of `s`. -/
def next (s : State) (t : Task) : Pc → Option (Effect × Pc)
  | .user => none
  | .ret _ => some (.skip, .user)
  | .stores [] k => some (.skip, k.done)
  | .stores (w :: todo) k => some (.store w, .stores todo k)
  | .waitReset => some (.setCondition 0, .waitTest)
  | .waitTest =>
    some (.skip, if s.condition ≠ 0 then .ret 1
      else .stores (initListHead (.entry t)) .defineWait)
  -- `prepare_to_wait(&wq, &__wait, TASK_INTERRUPTIBLE)`
  | .prepareLock => some (.lock, .prepareEmpty)
  | .prepareEmpty =>
    some (.skip, if s.links.next (.entry t) = .entry t then .prepareHead else .prepareState)
  | .prepareHead => some (.skip, .prepareWarnPrev (s.links.next .taskList))
  | .prepareWarnPrev next =>
    some (if s.links.prev next ≠ .taskList then .warn else .skip, .prepareWarnNext next)
  | .prepareWarnNext next =>
    some (if s.links.next .taskList ≠ next then .warn else .skip,
      .stores (linkStores (.entry t) .taskList next) .listAdd)
  | .prepareState => some (.setState .interruptible, .prepareUnlock)
  | .prepareUnlock => some (.unlock, .waitRetest)
  | .waitRetest => some (.skip, if s.condition ≠ 0 then .finishState else .waitSignal)
  | .waitSignal => some (.skip, if (s.sched t).sigPending then .finishState else .waitSchedule)
  | .waitSchedule => some (.schedule, .waitAsleep)
  | .waitAsleep => some (.skip, .prepareLock)
  -- `finish_wait(&wq, &__wait)`; `list_empty_careful` is asked without the lock.
  | .finishState => some (.setState .running, .finishNext)
  | .finishNext =>
    some (.skip, if s.links.next (.entry t) = .entry t then .finishPrev else .finishLock)
  | .finishPrev => some (.skip, if s.links.prev (.entry t) = .entry t then .ret 1 else .finishLock)
  | .finishLock => some (.lock, .deletePrev .finish)
  | .finishUnlock => some (.unlock, .ret 1)
  -- `list_del_init`
  | .deletePrev d => some (.skip, .deleteNext d (s.links.prev (.entry (d.task t))))
  | .deleteNext d prev =>
    some (.skip, .stores (unlinkStores (.entry (d.task t)) prev (s.links.next (.entry (d.task t))))
      (.listDelInit d))
  | .sigActive =>
    some (.skip, if s.links.next .taskList = .taskList then .ret 0 else .sigFirst)
  -- Under the lock of the event list only.
  | .sigFirst => some (.skip, sigLoop (s.links.next .taskList) 0)
  | .sigNext pos process => some (.skip, sigLoop (s.links.next pos) process)
  | .sigCondition process => some (.setCondition 1, .wakeLock process)
  -- `wake_up_all(&waitEvent->queue)`; the successor is loaded before the loop test.
  | .wakeLock process => some (.lock, .wakeFirst process)
  | .wakeFirst process => some (.skip, .wakeNext process (s.links.next .taskList))
  | .wakeNext process .taskList => some (.skip, .wakeUnlock process)
  | .wakeNext process (.entry curr) =>
    some (.skip, .wakeFunc process curr (s.links.next (.entry curr)))
  | .wakeFunc process curr next =>
    some (.tryToWakeUp curr, if (tryToWakeUp (s.sched curr)).2 then
      .deletePrev (.autoremove process curr next) else .wakeNext process next)
  | .wakeUnlock process => some (.unlock, .ret process)

/-- The frame of `wait_event_interruptible` with its entry is on the stack. -/
def Pc.framed : Pc → Bool
  | .user | .ret _ | .waitReset | .waitTest | .sigActive | .sigFirst | .sigNext _ _
  | .sigCondition _ | .wakeLock _ | .wakeFirst _ | .wakeNext _ _ | .wakeFunc _ _ _
  | .wakeUnlock _ | .deletePrev (.autoremove _ _ _) | .deleteNext (.autoremove _ _ _) _
  | .stores _ (.listDelInit (.autoremove _ _ _)) => false
  | .stores _ .defineWait | .stores _ .listAdd | .stores _ (.listDelInit .finish)
  | .deletePrev .finish | .deleteNext .finish _ | .prepareLock | .prepareEmpty | .prepareHead
  | .prepareWarnPrev _ | .prepareWarnNext _ | .prepareState | .prepareUnlock | .waitRetest
  | .waitSignal | .waitSchedule | .waitAsleep | .finishState | .finishNext | .finishPrev
  | .finishLock | .finishUnlock => true

/-- Scheduler choices. A task in user mode waits for the event or signals it, or takes its
pending POSIX signal; a task on the run queue takes its next step; a POSIX signal becomes
pending; the stack of a task is used for something else where the entry was. -/
inductive Action where
  | wait (t : Task)
  | sig (t : Task)
  | run (t : Task)
  | posix (t : Task)
  | deliver (t : Task)
  | reuse (t : Task) (next prev : ListHead)
  deriving DecidableEq, Repr

def Action.task : Action → Task
  | .wait t | .sig t | .run t | .posix t | .deliver t | .reuse t _ _ => t

def step (s : State) : Action → Option State
  | .wait t => if s.pc t = .user then some (s.goto t .waitReset) else none
  | .sig t => if s.pc t = .user then some (s.goto t .sigActive) else none
  | .run t =>
    if (s.sched t).onRq then
      (next s t (s.pc t)).bind fun r => (apply s t r.1).map fun m => m.goto t r.2
    else none
  | .posix t => some (s.setSched t (signalWakeUp (s.sched t)))
  | .deliver t =>
    if s.pc t = .user then some (s.setSched t { s.sched t with sigPending := false }) else none
  | .reuse t next prev =>
    if (s.pc t).framed then none
    else some { s with links := (s.links.setNext (.entry t) next).setPrev (.entry t) prev }

/-- Any schedule. -/
abbrev Steps := Transition.Run step fun _ _ => True

/-- The entries and the head that a task at a program counter reads or writes. -/
def Pc.touches (t : Task) : Pc → List ListHead
  | .stores (w :: _) _ => [w.node]
  | .prepareEmpty | .finishNext | .finishPrev => [.entry t]
  | .prepareHead | .prepareWarnNext _ | .sigActive | .sigFirst | .wakeFirst _ => [.taskList]
  | .prepareWarnPrev next => [next]
  | .deletePrev d | .deleteNext d _ => [.entry (d.task t)]
  | .sigNext pos _ => [pos]
  | .wakeNext _ curr => [curr]
  | .wakeFunc _ curr _ => [.entry curr]
  | _ => []

/-- The loop that counts the waiting tasks. -/
def Pc.counts : Pc → Bool
  | .sigNext _ _ => true
  | _ => false

end DoEvent.Queue
