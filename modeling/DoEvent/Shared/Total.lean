import Mathlib.Algebra.BigOperators.Group.Finset.Piecewise
import Mathlib.Algebra.Order.BigOperators.Group.Finset
import Mathlib.Algebra.Order.Ring.Nat

/-!
# Totals over threads

The weights of all threads, of which all but finitely many weigh nothing, add up to a total.
One thread's step changes its own weight, and the total by the difference.
-/

namespace Shared

variable {ι : Type*} {w : ι → ℕ} {n : ℕ} {t : ι} {F : Finset ι}

-- `F` has every thread that weighs something.
def Covers (F : Finset ι) (w : ι → ℕ) : Prop := ∀ t, t ∉ F → w t = 0

def Total (w : ι → ℕ) (n : ℕ) : Prop := ∃ F : Finset ι, Covers F w ∧ ∑ t ∈ F, w t = n

theorem total_zero : Total (fun _ : ι => 0) 0 := ⟨∅, fun _ _ => rfl, rfl⟩

variable [DecidableEq ι]

/-- Every cover gives the same total. -/
theorem Total.sum_eq (h : Total w n) (hF : Covers F w) : ∑ t ∈ F, w t = n := by
  obtain ⟨G, hG, rfl⟩ := h
  have hF' : ∑ t ∈ F, w t = ∑ t ∈ F ∪ G, w t :=
    Finset.sum_subset Finset.subset_union_left fun t _ ht => hF t ht
  have hG' : ∑ t ∈ G, w t = ∑ t ∈ F ∪ G, w t :=
    Finset.sum_subset Finset.subset_union_right fun t _ ht => hG t ht
  rw [hF', hG']

theorem Total.le (h : Total w n) (t : ι) : w t ≤ n := by
  obtain ⟨F, hF, rfl⟩ := h
  by_cases ht : t ∈ F
  · exact Finset.single_le_sum (fun _ _ => Nat.zero_le _) ht
  · rw [hF t ht]
    exact Nat.zero_le _

theorem Total.update (h : Total w n) (t : ι) (v : ℕ) :
    ∃ m, Total (Function.update w t v) m ∧ m + w t = n + v := by
  obtain ⟨F, hF, rfl⟩ := h
  have ht : t ∈ insert t F := Finset.mem_insert_self t F
  have hold : ∑ x ∈ F, w x = ∑ x ∈ insert t F, w x :=
    Finset.sum_subset (Finset.subset_insert t F) fun x _ hx => hF x hx
  have hsplit := Finset.sum_erase_add (insert t F) w ht
  refine ⟨_, ⟨insert t F, fun x hx => ?_, rfl⟩, ?_⟩
  · have hne : x ≠ t := fun he => hx (he ▸ ht)
    rw [Function.update_of_ne hne]
    exact hF x fun hm => hx (Finset.mem_insert_of_mem hm)
  · rw [Finset.sum_update_of_mem ht, Finset.sdiff_singleton_eq_erase, hold]
    omega

/-- A bound on the threads that weigh something, and on what one of them weighs. -/
theorem Total.le_mul (h : Total w n) (hF : Covers F w) {k b : ℕ} (hk : F.card ≤ k)
    (hb : ∀ t, w t ≤ b) : n ≤ k * b := by
  calc n = ∑ t ∈ F, w t := (h.sum_eq hF).symm
    _ ≤ ∑ _t ∈ F, b := Finset.sum_le_sum fun t _ => hb t
    _ = F.card * b := Finset.sum_const_nat fun _ _ => rfl
    _ ≤ k * b := Nat.mul_le_mul_right b hk

end Shared
