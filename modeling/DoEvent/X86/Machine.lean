import DoEvent.Locked.Discipline
import DoEvent.X86.RwLock

/-!
# The eight calls over the lock of x86

The machine of `DoEvent.Locked` with `lock` as the word that it is: where a call takes or
releases the lock, the task executes the instructions of the lock, one a step. Everything
else is as there. A task in these instructions or in a section runs with interrupts off and
cannot be preempted, so it has a CPU to itself.
-/

namespace DoEvent.X86

open Shared

structure State where
  node : Addr → Locked.Node
  inUse : Addr → Bool
  lock : Word
  sched : Task → Sched
  user : Task → UserMem
  pc : Task → Locked.Pc
  slow : Task → Slow

def doeventInit (node : Addr → Locked.Node) (user : Task → UserMem) : State where
  node := Function.update node allevents
    { node allevents with id := -1, queue := [], next := allevents, prev := allevents }
  inUse := fun a => a == allevents
  lock := rwLockBias
  sched := fun _ => Sched.fresh
  user := user
  pc := fun _ => .user
  slow := fun _ => .out

/-- The state with an abstract lock in place of the word. -/
def State.withLock (s : State) (k : RwLock Task) : Locked.State :=
  ⟨s.node, s.inUse, k, s.sched, s.user, s.pc⟩

/-- The state after a step of the calls that does not touch the lock. -/
def State.ofCalls (s : State) (m : Locked.State) : State :=
  ⟨m.node, m.inUse, s.lock, m.sched, m.user, m.pc, s.slow⟩

def State.goto (s : State) (t : Task) (p : Locked.Pc) : State :=
  { s with pc := Function.update s.pc t p }

/-- An instruction on the way to the lock; a task that has got it is in the section at `p`. -/
def State.try (s : State) (t : Task) (p : Locked.Pc) (r : Word × Slow) : State :=
  { s with
    lock := r.1
    slow := Function.update s.slow t r.2
    pc := if r.2 = .out then Function.update s.pc t p else s.pc }

def execute (s : State) (t : Task) (p : Locked.Pc) : Locked.Effect → Option State
  | .readLock => some (s.try t p (attempt .read s.lock (s.slow t)))
  | .writeLock => some (s.try t p (attempt .write s.lock (s.slow t)))
  | .readUnlock => some ({ s with lock := rawReadUnlock s.lock }.goto t p)
  | .writeUnlock => some ({ s with lock := rawWriteUnlock s.lock }.goto t p)
  -- No other effect reads the lock.
  | e => (Locked.apply (s.withLock (.shared [])) t e).map fun m => (s.ofCalls m).goto t p

def step (s : State) : Action → Option State
  | .run t =>
    if (s.sched t).onRq then
      (Locked.next (s.withLock (.shared [])) t (s.pc t)).bind fun r => execute s t r.2 r.1
    else none
  | x => (Locked.step (s.withLock (.shared [])) x).map s.ofCalls

/-- The task is on a CPU that nobody else can have. -/
def State.Busy (s : State) (t : Task) : Prop := (s.pc t).access ≠ .none ∨ s.slow t ≠ .out

/-- There are `n` CPUs (`NR_CPUS`), and the acting task is on one of them. -/
def OnCpus (n : ℕ) (s : State) (x : Action) : Prop :=
  ∃ F : Finset Task, F.card ≤ n ∧ x.task ∈ F ∧ ∀ t, s.Busy t → t ∈ F

/-! ### Which lock a step takes -/

def asksFor : Locked.Pc → Access
  | .searchLock .. | .infoLock .. => .read
  | .openLock .. | .closeLock .. | .sigLock _ | .changeLock .. => .write
  | _ => .none

def effectAsks : Locked.Effect → Access
  | .readLock => .read
  | .writeLock => .write
  | _ => .none

section
variable {s : State} {m : Locked.State} {t : Task} {q p : Locked.Pc} {e : Locked.Effect}
  {k k' : RwLock Task}

theorem access_of_asksFor (h : asksFor q ≠ .none) : q.access = .none := by
  cases q with
  | searchLock | infoLock | openLock | closeLock | sigLock | changeLock => rfl
  | _ => exact absurd rfl h

theorem next_asksFor (h : Locked.next m t q = some (e, p)) : asksFor q = effectAsks e := by
  cases q with
  | user | openAlloc => cases h
  | stores todo k => cases todo <;> cases h <;> rfl
  | _ =>
    cases h
    rfl

/-- What a task does next does not depend on the lock. -/
theorem next_withLock : Locked.next (s.withLock k) t q = Locked.next (s.withLock k') t q := by
  cases q with
  | stores todo j => cases todo <;> rfl
  | _ => rfl

theorem apply_withLock (he : e.isLock = false) :
    Locked.apply (s.withLock k) t e =
      (Locked.apply (s.withLock (.shared [])) t e).map fun m => { m with lock := k } := by
  cases e with
  | readLock | readUnlock | writeLock | writeUnlock => cases he
  | prepareToWait a | finishWait a =>
    by_cases hl : (s.sched t).linked = true <;>
      simp [Locked.apply, Locked.prepareToWait, Locked.finishWait, Locked.State.setSched,
        State.withLock, hl]
  | _ => rfl

end

end DoEvent.X86
