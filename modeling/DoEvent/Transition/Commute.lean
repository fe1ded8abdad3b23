import Mathlib.Data.List.Perm.Basic

/-!
# Operations that commute

An operation takes a state to the next one and gives a result. `Ready xs s` says that the
operations `xs` may be carried out from `s`. If each operation keeps the others ready, and
two ready operations commute without noticing each other, then all orders of the
operations lead to the same state and give each operation the same result.
-/

namespace Transition

variable {σ α ρ : Type*} (act : α → σ → σ × ρ)

/-- The operations one after the other, with their results. -/
def performAll : List α → σ → σ × List ρ
  | [], s => (s, [])
  | x :: xs, s =>
    let r := performAll xs (act x s).1
    (r.1, (act x s).2 :: r.2)

structure Commuting (Ready : List α → σ → Prop) : Prop where
  perm : ∀ {xs ys s}, xs.Perm ys → Ready xs s → Ready ys s
  tail : ∀ {x xs s}, Ready (x :: xs) s → Ready xs (act x s).1
  diamond : ∀ {x y xs s}, Ready (x :: y :: xs) s →
    (act y (act x s).1).1 = (act x (act y s).1).1 ∧ (act y (act x s).1).2 = (act y s).2

section
variable {act} {Ready : List α → σ → Prop} {s : σ} {xs ys : List α}

/-- An operation gives the result that it would give as the first one. -/
theorem Commuting.results (hc : Commuting act Ready) (h : Ready xs s) :
    (performAll act xs s).2 = xs.map fun x => (act x s).2 := by
  induction xs generalizing s with
  | nil => rfl
  | cons x xs ih =>
    rw [performAll, List.map_cons, ih (hc.tail h)]
    refine congrArg _ (List.map_congr_left fun y hy => ?_)
    obtain ⟨l, l', rfl⟩ := List.append_of_mem hy
    exact (hc.diamond (hc.perm (List.perm_middle.cons x) h)).2

theorem Commuting.final (hc : Commuting act Ready) (hp : xs.Perm ys) (h : Ready xs s) :
    (performAll act xs s).1 = (performAll act ys s).1 := by
  induction hp generalizing s with
  | nil => rfl
  | cons x _ ih => exact ih (hc.tail h)
  | swap x y l =>
    change (performAll act l (act x (act y s).1).1).1 = (performAll act l (act y (act x s).1).1).1
    rw [(hc.diamond h).1]
  | trans hxy _ ih ih' => exact (ih h).trans (ih' (hc.perm hxy h))

end

end Transition
