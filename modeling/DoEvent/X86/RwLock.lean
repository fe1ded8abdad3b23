import DoEvent.Shared.RwLock
import DoEvent.Shared.Total

/-!
# The reader-writer lock of x86

`lock` is a 32-bit word (`arch/x86/include/asm/spinlock.h`). It starts at `RW_LOCK_BIAS`; a
reader takes 1 from it and a writer the whole bias, and each looks at the flags of its own
subtraction to see whether it has the lock. A task that has not got it gives back what it
took, spins and tries again (`arch/x86/lib/rwlock_64.S`), so the word lacks what is held and
what failed attempts have not given back yet.
-/

namespace DoEvent.X86

open Shared

abbrev Word := BitVec 32

def rwLockBias : Word := 0x01000000

/-- The next instruction of a task in `__read_lock_failed` or `__write_lock_failed`; `out`
for a task that is in neither. -/
inductive Slow where
  | out
  | readIncl
  | readCmpl
  | readDecl
  | writeAddl
  | writeCmpl
  | writeSubl
  deriving DecidableEq, Repr

-- `subl $1,(%0)`, and on a negative result the call of `__read_lock_failed`.
def rawReadLock (lock : Word) : Word × Slow :=
  (lock - 1, if (lock - 1).msb then .readIncl else .out)

-- `subl RW_LOCK_BIAS,(%0)`, and on a result other than 0 the call of `__write_lock_failed`.
def rawWriteLock (lock : Word) : Word × Slow :=
  (lock - rwLockBias, if lock - rwLockBias = 0 then .out else .writeAddl)

def rawReadUnlock (lock : Word) : Word := lock + 1

def rawWriteUnlock (lock : Word) : Word := lock + rwLockBias

/-- One instruction of the two slow paths, with the jump after it. -/
def slowStep (lock : Word) : Slow → Word × Slow
  | .out => (lock, .out)
  | .readIncl => (lock + 1, .readCmpl)
  -- `js` looks at the sign of the difference.
  | .readCmpl => (lock, if (lock - 1).msb then .readCmpl else .readDecl)
  | .readDecl => rawReadLock lock
  | .writeAddl => (lock + rwLockBias, .writeCmpl)
  | .writeCmpl => (lock, if lock = rwLockBias then .writeSubl else .writeCmpl)
  | .writeSubl => rawWriteLock lock

/-- Which lock a task in a slow path wants. -/
def Slow.asksFor : Slow → Access
  | .out => .none
  | .readIncl | .readCmpl | .readDecl => .read
  | .writeAddl | .writeCmpl | .writeSubl => .write

/-- The instruction that a task executes on its way to the lock. The task has the lock when
it comes out of the code. -/
def attempt (a : Access) (lock : Word) (slow : Slow) : Word × Slow :=
  match slow, a with
  | .out, .read => rawReadLock lock
  | .out, .write => rawWriteLock lock
  | slow, _ => slowStep lock slow

/-! ### What the word lacks -/

def bias : ℕ := 16777216

def heldWeight : Access → ℕ
  | .none => 0
  | .read => 1
  | .write => bias

/-- What a failed attempt has still to give back. -/
def Slow.weight : Slow → ℕ
  | .readIncl => 1
  | .writeAddl => bias
  | _ => 0

def Lacks (lock : Word) (n : ℕ) : Prop := (lock.toNat + n) % 4294967296 = bias

theorem toNat_one : (1 : Word).toNat = 1 := rfl

theorem toNat_rwLockBias : rwLockBias.toNat = 16777216 := rfl

section
variable {lock : Word} {n : ℕ}

theorem lacks_zero_iff : Lacks lock 0 ↔ lock = rwLockBias := by
  unfold Lacks bias
  have := lock.isLt
  rw [← BitVec.toNat_inj, toNat_rwLockBias]
  omega

theorem Lacks.sub_one (h : Lacks lock n) : Lacks (lock - 1) (n + 1) := by
  unfold Lacks bias at *
  have := lock.isLt
  rw [BitVec.toNat_sub, toNat_one]
  omega

theorem Lacks.add_one (h : Lacks lock (n + 1)) : Lacks (lock + 1) n := by
  unfold Lacks bias at *
  rw [BitVec.toNat_add, toNat_one]
  omega

theorem Lacks.sub_bias (h : Lacks lock n) : Lacks (lock - rwLockBias) (n + bias) := by
  unfold Lacks bias at *
  have := lock.isLt
  rw [BitVec.toNat_sub, toNat_rwLockBias]
  omega

theorem Lacks.add_bias (h : Lacks lock (n + bias)) : Lacks (lock + rwLockBias) n := by
  unfold Lacks bias at *
  rw [BitVec.toNat_add, toNat_rwLockBias]
  omega

-- The flags. Up to 128 other tasks may have taken the bias from the word; with one more the
-- difference of a reader would wrap to a positive number.

theorem Lacks.sign (h : Lacks lock n) (hn : n ≤ 128 * bias) :
    (lock - 1).msb = true ↔ bias ≤ n := by
  unfold Lacks bias at *
  have := lock.isLt
  rw [BitVec.msb_eq_decide, decide_eq_true_eq, BitVec.toNat_sub, toNat_one]
  omega

-- The sign that a reader sees past 129 writers.
example : (rwLockBias - 129 * rwLockBias - 1).msb = false := by decide

theorem Lacks.zero (h : Lacks lock n) (hn : n ≤ 128 * bias) : lock - rwLockBias = 0 ↔ n = 0 := by
  unfold Lacks bias at *
  have := lock.isLt
  have hzero : (0 : Word).toNat = 0 := rfl
  rw [← BitVec.toNat_inj, BitVec.toNat_sub, toNat_rwLockBias, hzero]
  omega

/-! ### One instruction -/

variable {a : Access} {slow : Slow}

/-- What the task weighs after the instruction: what it holds, or what it has to give back. -/
def attemptWeight (a : Access) (slow : Slow) : ℕ :=
  if slow = .out then heldWeight a else slow.weight

theorem rawReadLock_cases (lock : Word) :
    (rawReadLock lock = (lock - 1, .readIncl) ∧ (lock - 1).msb = true) ∨
    (rawReadLock lock = (lock - 1, .out) ∧ (lock - 1).msb = false) := by
  unfold rawReadLock
  cases h : (lock - 1).msb
  · exact .inr ⟨rfl, rfl⟩
  · exact .inl ⟨rfl, rfl⟩

theorem rawWriteLock_cases (lock : Word) :
    (rawWriteLock lock = (lock - rwLockBias, .out) ∧ lock - rwLockBias = 0) ∨
    (rawWriteLock lock = (lock - rwLockBias, .writeAddl) ∧ lock - rwLockBias ≠ 0) := by
  unfold rawWriteLock
  by_cases h : lock - rwLockBias = 0
  · rw [if_pos h]
    exact .inl ⟨rfl, h⟩
  · rw [if_neg h]
    exact .inr ⟨rfl, h⟩

theorem lacks_rawReadLock (h : Lacks lock n) :
    Lacks (rawReadLock lock).1 (n + attemptWeight .read (rawReadLock lock).2) := by
  rcases rawReadLock_cases lock with ⟨he, _⟩ | ⟨he, _⟩ <;> rw [he] <;> exact h.sub_one

theorem lacks_rawWriteLock (h : Lacks lock n) :
    Lacks (rawWriteLock lock).1 (n + attemptWeight .write (rawWriteLock lock).2) := by
  rcases rawWriteLock_cases lock with ⟨he, _⟩ | ⟨he, _⟩ <;> rw [he] <;> exact h.sub_bias

/-- An instruction moves the word by as much as it moves the task's weight. -/
theorem attempt_lacks (ha : a ≠ .none) (hslow : slow = .out ∨ slow.asksFor = a)
    (h : Lacks lock (n + slow.weight)) :
    Lacks (attempt a lock slow).1 (n + attemptWeight a (attempt a lock slow).2) := by
  cases slow with
  | out =>
    cases a with
    | none => exact absurd rfl ha
    | read => exact lacks_rawReadLock h
    | write => exact lacks_rawWriteLock h
  | readIncl => exact h.add_one
  | writeAddl => exact h.add_bias
  | readDecl =>
    obtain rfl : Access.read = a := hslow.resolve_left (by simp)
    exact lacks_rawReadLock h
  | writeSubl =>
    obtain rfl : Access.write = a := hslow.resolve_left (by simp)
    exact lacks_rawWriteLock h
  | readCmpl =>
    simp only [attempt, slowStep]
    split <;> exact h
  | writeCmpl =>
    simp only [attempt, slowStep]
    split <;> exact h

theorem attempt_asksFor (ha : a ≠ .none) (hslow : slow = .out ∨ slow.asksFor = a)
    (hout : (attempt a lock slow).2 ≠ .out) : (attempt a lock slow).2.asksFor = a := by
  have hread : (rawReadLock lock).2 ≠ .out → (rawReadLock lock).2.asksFor = .read := by
    rcases rawReadLock_cases lock with ⟨he, _⟩ | ⟨he, _⟩ <;> rw [he] <;> simp [Slow.asksFor]
  have hwrite : (rawWriteLock lock).2 ≠ .out → (rawWriteLock lock).2.asksFor = .write := by
    rcases rawWriteLock_cases lock with ⟨he, _⟩ | ⟨he, _⟩ <;> rw [he] <;> simp [Slow.asksFor]
  cases slow with
  | out =>
    cases a with
    | none => exact absurd rfl ha
    | read => exact hread hout
    | write => exact hwrite hout
  | readDecl =>
    obtain rfl : Access.read = a := hslow.resolve_left (by simp)
    exact hread hout
  | writeSubl =>
    obtain rfl : Access.write = a := hslow.resolve_left (by simp)
    exact hwrite hout
  | readIncl | writeAddl => exact hslow.resolve_left (by simp)
  | readCmpl | writeCmpl =>
    simp only [attempt, slowStep]
    split <;> exact hslow.resolve_left (by simp)

theorem weight_of_attempt_out (hout : (attempt a lock slow).2 = .out) : slow.weight = 0 := by
  cases slow with
  | readIncl | writeAddl => cases hout
  | _ => rfl

/-- A task that comes out has seen the word it needs: nobody else has taken the bias from it,
and for a writer nobody else has taken anything. -/
theorem attempt_out (ha : a ≠ .none) (hslow : slow = .out ∨ slow.asksFor = a)
    (h : Lacks lock n) (hn : n ≤ 128 * bias) (hout : (attempt a lock slow).2 = .out) :
    n < bias ∧ (a = .write → n = 0) := by
  have hread : (rawReadLock lock).2 = .out → n < bias := by
    rcases rawReadLock_cases lock with ⟨he, hs⟩ | ⟨he, hs⟩ <;> rw [he]
    · simp
    · intro _
      rw [← Nat.not_le, ← h.sign hn, hs]
      decide
  have hwrite : (rawWriteLock lock).2 = .out → n = 0 := by
    rcases rawWriteLock_cases lock with ⟨he, hz⟩ | ⟨he, hz⟩ <;> rw [he]
    · exact fun _ => (h.zero hn).mp hz
    · simp
  have hbias : 0 < bias := by decide
  cases slow with
  | out =>
    cases a with
    | none => exact absurd rfl ha
    | read => exact ⟨hread hout, by simp⟩
    | write => exact ⟨hwrite hout ▸ hbias, fun _ => hwrite hout⟩
  | readDecl =>
    obtain rfl : Access.read = a := hslow.resolve_left (by simp)
    exact ⟨hread hout, by simp⟩
  | writeSubl =>
    obtain rfl : Access.write = a := hslow.resolve_left (by simp)
    exact ⟨hwrite hout ▸ hbias, fun _ => hwrite hout⟩
  | readIncl | writeAddl => cases hout
  | readCmpl | writeCmpl =>
    simp only [attempt, slowStep] at hout
    split at hout <;> cases hout

end

end DoEvent.X86
