import Mathlib.Data.List.Nodup
import Mathlib.Logic.Function.Basic

/-!
# Reader-writer locks

A lock is held by any number of readers or by one writer. What the threads believe to hold
is a function from threads to accesses; the lock agrees with it as long as threads take and
release it in pairs.
-/

namespace Shared

inductive Access where
  | none
  | read
  | write
  deriving DecidableEq, Repr

/-- Held by readers, by none of them when it is free, or by a writer. -/
inductive RwLock (ι : Type*) where
  | shared (holders : List ι)
  | exclusive (holder : ι)
  deriving DecidableEq, Repr

namespace RwLock

variable {ι : Type*}

def readLock (t : ι) : RwLock ι → Option (RwLock ι)
  | .shared holders => some (.shared (t :: holders))
  | .exclusive _ => none

def writeLock (t : ι) : RwLock ι → Option (RwLock ι)
  | .shared [] => some (.exclusive t)
  | _ => none

def writeUnlock : RwLock ι → RwLock ι
  | .shared holders => .shared holders
  | .exclusive _ => .shared []

variable [DecidableEq ι]

def readUnlock (t : ι) : RwLock ι → RwLock ι
  | .shared holders => .shared (holders.erase t)
  | .exclusive w => .exclusive w

def Holds (t : ι) : RwLock ι → Prop
  | .shared holders => t ∈ holders
  | .exclusive w => t = w

/-- The lock is held as the threads hold it. -/
def Agrees (acc : ι → Access) : RwLock ι → Prop
  | .shared holders => holders.Nodup ∧ ∀ t, acc t = if t ∈ holders then .read else .none
  | .exclusive w => ∀ t, acc t = if t = w then .write else .none

section
variable {k k' : RwLock ι} {acc : ι → Access} {t u : ι}

theorem agrees_free : (shared ([] : List ι)).Agrees fun _ => .none :=
  ⟨List.nodup_nil, fun _ => rfl⟩

theorem Agrees.holds_iff (h : k.Agrees acc) : k.Holds t ↔ acc t ≠ .none := by
  cases k with
  | shared holders =>
    rw [h.2 t]
    by_cases ht : t ∈ holders <;> simp [Holds, ht]
  | exclusive w =>
    rw [h t]
    by_cases ht : t = w <;> simp [Holds, ht]

theorem Agrees.reader (h : k.Agrees acc) (ht : acc t = .read) :
    ∃ holders, k = .shared holders ∧ t ∈ holders := by
  cases k with
  | shared holders =>
    rw [h.2 t] at ht
    split at ht
    next hm => exact ⟨holders, rfl, hm⟩
    next => cases ht
  | exclusive w =>
    rw [h t] at ht
    split at ht <;> cases ht

/-- A lock that no thread holds is free. -/
theorem Agrees.eq_free (h : k.Agrees acc) (hnone : ∀ t, acc t = .none) : k = .shared [] := by
  have hout : ∀ t, ¬ k.Holds t := fun t ht => h.holds_iff.mp ht (hnone t)
  cases k with
  | shared holders =>
    have hnil : holders = [] := List.eq_nil_iff_forall_not_mem.mpr hout
    rw [hnil]
  | exclusive w => exact absurd rfl (hout w)

/-- The lock tells who holds it, and how. -/
theorem Agrees.unique {acc' : ι → Access} (h : k.Agrees acc) (h' : k.Agrees acc') : acc = acc' := by
  funext t
  cases k with
  | shared holders => rw [h.2 t, h'.2 t]
  | exclusive w => rw [h t, h' t]

/-- Who reads excludes every writer. -/
theorem Agrees.no_writer (h : k.Agrees acc) (ht : acc t = .read) (u : ι) : acc u ≠ .write := by
  cases k with
  | shared holders =>
    rw [h.2 u]
    split <;> simp
  | exclusive w =>
    rw [h t] at ht
    split at ht <;> cases ht

/-- Who writes is alone. -/
theorem Agrees.alone (h : k.Agrees acc) (ht : acc t = .write) : k = .exclusive t := by
  cases k with
  | shared holders =>
    rw [h.2 t] at ht
    split at ht <;> cases ht
  | exclusive w =>
    rw [h t] at ht
    split at ht
    next he => rw [he]
    next => cases ht

theorem Agrees.other (h : k.Agrees acc) (ht : acc t = .write) (hu : u ≠ t) : acc u = .none := by
  rw [h.alone ht] at h
  rw [h u, if_neg hu]

theorem Agrees.readLock (h : k.Agrees acc) (ht : acc t = .none) (hk : k.readLock t = some k') :
    k'.Agrees (Function.update acc t .read) := by
  cases k with
  | exclusive w => cases hk
  | shared holders =>
    cases hk
    have hnot : t ∉ holders := fun hm => by
      rw [h.2 t, if_pos hm] at ht
      cases ht
    refine ⟨List.nodup_cons.mpr ⟨hnot, h.1⟩, fun u => ?_⟩
    by_cases hu : u = t
    · subst hu
      simp
    · rw [Function.update_of_ne hu, h.2 u]
      simp [hu]

theorem Agrees.readUnlock (h : k.Agrees acc) (ht : acc t = .read) :
    (k.readUnlock t).Agrees (Function.update acc t .none) := by
  cases k with
  | exclusive w =>
    rw [h t] at ht
    split at ht <;> cases ht
  | shared holders =>
    refine ⟨h.1.erase t, fun u => ?_⟩
    by_cases hu : u = t
    · subst hu
      simp [h.1.mem_erase_iff]
    · rw [Function.update_of_ne hu, h.2 u]
      simp [h.1.mem_erase_iff, hu]

theorem Agrees.writeLock (h : k.Agrees acc) (hk : k.writeLock t = some k') :
    k'.Agrees (Function.update acc t .write) := by
  cases k with
  | exclusive w => cases hk
  | shared holders =>
    cases holders with
    | cons a l => cases hk
    | nil =>
      cases hk
      intro u
      by_cases hu : u = t
      · subst hu
        simp
      · rw [Function.update_of_ne hu, h.2 u]
        simp [hu]

theorem Agrees.writeUnlock (h : k.Agrees acc) (ht : acc t = .write) :
    k.writeUnlock.Agrees (Function.update acc t .none) := by
  have hall : ∀ u, Function.update acc t .none u = .none := by
    intro u
    by_cases hu : u = t
    · rw [hu, Function.update_self]
    · rw [Function.update_of_ne hu, h.other ht hu]
  rw [h.alone ht]
  exact ⟨List.nodup_nil, hall⟩

end

end RwLock

end Shared
