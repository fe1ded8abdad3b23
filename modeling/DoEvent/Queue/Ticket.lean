import DoEvent.Queue.Preservation
import DoEvent.Shared.Ticket
import Mathlib.Data.Finset.Card

/-!
# The spin lock of x86 under the wait queue

`queue.lock` is a 16-bit word `slock` (`arch/x86/include/asm/spinlock.h`, with fewer than 256
CPUs): the low byte is the number that is being served, the high byte the number that the
next task gets. A task takes its number with one `xaddw`, which gives it both bytes, and loads
the low byte again until that is its number. The release is an `incb` of the low byte, which
does not carry into the high one.

The machine is that of `DoEvent.Queue` with the word in place of the lock: the instructions of
the lock that go to memory are steps of their own. A task in them or in a section under the
lock runs with interrupts off and has a CPU to itself.
-/

namespace DoEvent.Queue.Ticket

open Shared

abbrev Word := BitVec 16

def Word.low (v : Word) : BitVec 8 := v.extractLsb' 0 8

def Word.high (v : Word) : BitVec 8 := v.extractLsb' 8 8

-- `short inc = 0x0100`, then `xaddw %w0, %1`: the word, and what is in the register.
def xaddw (slock : Word) : Word × Word := (slock + 0x0100, slock)

-- `movb %1, %b0`
def movb (slock inc : Word) : Word := inc.high ++ slock.low

/-- The instruction with which a task in `__ticket_spin_lock` goes to memory next: the `xaddw`
when it has nothing in the register yet, and the load in the loop from then on. -/
def ticketSpinLock (slock : Word) : Option Word → Word × Word
  | none => xaddw slock
  | some inc => (slock, movb slock inc)

/-- `cmpb %h0, %b0`: the loop is left. -/
def served (inc : Word) : Bool := inc.high == inc.low

-- `incb %0`
def ticketSpinUnlock (slock : Word) : Word := slock.high ++ (slock.low + 1)

section
variable (v inc : Word)

theorem low_toNat : v.low.toNat = v.toNat % 256 := by
  rw [Word.low, BitVec.extractLsb'_toNat, Nat.shiftRight_zero]

theorem high_toNat : v.high.toNat = v.toNat / 256 := by
  have := v.isLt
  rw [Word.high, BitVec.extractLsb'_toNat, Nat.shiftRight_eq_div_pow]
  omega

theorem xaddw_toNat : (xaddw v).1.toNat = (v.toNat + 256) % 65536 := BitVec.toNat_add v 0x0100

theorem xaddw_low : (xaddw v).1.low = v.low := by
  rw [← BitVec.toNat_inj, low_toNat, low_toNat, xaddw_toNat]
  omega

theorem xaddw_high : (xaddw v).1.high = v.high + 1 := by
  have := v.isLt
  have hone : (1 : BitVec 8).toNat = 1 := rfl
  rw [← BitVec.toNat_inj, BitVec.toNat_add, hone, high_toNat, high_toNat, xaddw_toNat]
  omega

theorem append_toNat (a b : BitVec 8) : (a ++ b : Word).toNat = 256 * a.toNat + b.toNat := by
  rw [BitVec.toNat_append, ← Nat.shiftLeft_add_eq_or_of_lt b.isLt, Nat.shiftLeft_eq,
    Nat.mul_comm]

theorem append_low (a b : BitVec 8) : Word.low (a ++ b) = b := by
  have := b.isLt
  rw [← BitVec.toNat_inj, low_toNat, append_toNat]
  omega

theorem append_high (a b : BitVec 8) : Word.high (a ++ b) = a := by
  have := b.isLt
  rw [← BitVec.toNat_inj, high_toNat, append_toNat]
  omega

theorem served_iff : served inc = true ↔ inc.high = inc.low := beq_iff_eq

theorem not_served_iff : served inc = false ↔ inc.high ≠ inc.low := beq_eq_false_iff_ne

theorem served_movb : served (movb v inc) = true ↔ inc.high = v.low := by
  rw [served_iff, movb, append_high, append_low]

end

/-! ### The machine -/

structure State where
  links : Links ListHead
  slock : Word
  condition : Int32
  sched : Task → Sched
  warned : Bool
  pc : Task → Pc
  -- The register of a task that has a number and not yet the lock.
  inc : Task → Option Word

/-- After `init_waitqueue_head`. -/
def init (links : Links ListHead) : State where
  links := (links.setNext .taskList .taskList).setPrev .taskList .taskList
  slock := 0
  condition := 0
  sched := fun _ => Sched.fresh
  warned := false
  pc := fun _ => .user
  inc := fun _ => none

/-- The state with an abstract lock in place of the word. -/
def State.withLock (s : State) (k : Option Task) : Queue.State :=
  ⟨s.links, k, s.condition, s.sched, s.warned, s.pc⟩

/-- The state after a step that does not touch the lock. -/
def State.ofQueue (s : State) (m : Queue.State) : State :=
  ⟨m.links, s.slock, m.condition, m.sched, m.warned, m.pc, s.inc⟩

/-- An instruction on the way to the lock; a task whose number is served is in the section
at `p`. -/
def State.spin (s : State) (t : Task) (p : Pc) (slock inc : Word) : State :=
  { s with
    slock := slock
    inc := Function.update s.inc t (if served inc then none else some inc)
    pc := if served inc then Function.update s.pc t p else s.pc }

theorem spin_served {s : State} {t : Task} {p : Pc} {slock inc : Word} (h : served inc = true) :
    s.spin t p slock inc =
      { s with
        slock := slock, inc := Function.update s.inc t none, pc := Function.update s.pc t p } := by
  simp [State.spin, h]

theorem spin_waiting {s : State} {t : Task} {p : Pc} {slock inc : Word} (h : served inc = false) :
    s.spin t p slock inc =
      { s with slock := slock, inc := Function.update s.inc t (some inc) } := by
  simp [State.spin, h]

def State.unlock (s : State) (t : Task) (p : Pc) : State :=
  { s with slock := ticketSpinUnlock s.slock, pc := Function.update s.pc t p }

def execute (s : State) (t : Task) (p : Pc) : Effect → Option State
  | .lock =>
    let r := ticketSpinLock s.slock (s.inc t)
    some (s.spin t p r.1 r.2)
  | .unlock => some (s.unlock t p)
  -- No other effect reads the lock.
  | e => (Queue.apply (s.withLock none) t e).map fun m => s.ofQueue (m.goto t p)

def step (s : State) : Action → Option State
  | .run t =>
    if (s.sched t).onRq then
      (Queue.next (s.withLock none) t (s.pc t)).bind fun r => execute s t r.2 r.1
    else none
  | x => (Queue.step (s.withLock none) x).map s.ofQueue

/-- The task is on a CPU that nobody else can have. -/
def State.Busy (s : State) (t : Task) : Prop := (s.pc t).locked = true ∨ s.inc t ≠ none

/-- There are `n` CPUs (`NR_CPUS`), and the acting task is on one of them. -/
def OnCpus (n : ℕ) (s : State) (x : Action) : Prop :=
  ∃ F : Finset Task, F.card ≤ n ∧ x.task ∈ F ∧ ∀ t, s.Busy t → t ∈ F

/-! ### Which steps go to the lock -/

def asksLock : Pc → Bool
  | .prepareLock | .finishLock | .wakeLock _ => true
  | _ => false

section
variable {s : State} {m : Queue.State} {t : Task} {q p : Pc} {e : Effect} {k : Option Task}

theorem locked_of_asksLock (h : asksLock q = true) : q.locked = false := by
  cases q with
  | prepareLock | finishLock | wakeLock => rfl
  | _ => cases h

theorem next_lock (h : Queue.next m t q = some (.lock, p)) : asksLock q = true := by
  cases q with
  | prepareLock | finishLock | wakeLock => rfl
  | stores todo j => cases todo <;> cases h
  | wakeNext process curr => cases curr <;> cases h
  | prepareWarnPrev next | prepareWarnNext next =>
    simp only [Queue.next] at h
    split_ifs at h <;> cases h
  | _ => cases h

theorem next_unlock (h : Queue.next m t q = some (.unlock, p)) : q.locked = true := by
  cases q with
  | prepareUnlock | finishUnlock | wakeUnlock => rfl
  | stores todo j => cases todo <;> cases h
  | wakeNext process curr => cases curr <;> cases h
  | prepareWarnPrev next | prepareWarnNext next =>
    simp only [Queue.next] at h
    split_ifs at h <;> cases h
  | _ => cases h

theorem next_of_asksLock (hq : asksLock q = true) (h : Queue.next m t q = some (e, p)) :
    e = .lock := by
  cases q with
  | prepareLock | finishLock | wakeLock =>
    cases h
    rfl
  | _ => cases hq

/-- What a task does next does not depend on the lock. -/
theorem next_withLock : Queue.next (s.withLock k) t q = Queue.next (s.withLock none) t q := by
  cases q with
  | stores todo j => cases todo <;> rfl
  | wakeNext process curr => cases curr <;> rfl
  | _ => rfl

def effectLocks : Effect → Bool
  | .lock | .unlock => true
  | _ => false

theorem apply_withLock (he : effectLocks e = false) :
    Queue.apply (s.withLock k) t e =
      (Queue.apply (s.withLock none) t e).map fun m => { m with lock := k } := by
  cases e with
  | lock | unlock => cases he
  | _ => rfl

end

end DoEvent.Queue.Ticket
