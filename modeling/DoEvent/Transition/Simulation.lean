import DoEvent.Transition.Run

/-!
# Simulation between two machines

A step of the first machine is answered by a list of steps of the second, which may be
empty. What the answers of single steps keep related stays related over whole runs, and
what an observer of the first machine notes down, an observer of the second does.
-/

namespace Transition

variable {σ α τ β γ : Type*} {step : σ → α → Option σ} {ok : σ → α → Prop}
  {step' : τ → β → Option τ} {ok' : τ → β → Prop} {s s' : σ} {r : τ} {xs : List α}

/-- The simulation rule. `acts` gives the answer to a step, and the answer to a run is what
is noted down of it; `note` and `note'` are the observers of the two machines. -/
theorem Run.simulated (acts : σ → α → List β) (note : σ → α → List γ) (note' : τ → β → List γ)
    (R : σ → τ → Prop) (h : Run step ok s xs s') (hr : R s r)
    (hstep : ∀ s x s' r, R s r → ok s x → step s x = some s' →
      ∃ r', Run step' ok' r (acts s x) r' ∧ observe step' note' r (acts s x) = note s x ∧ R s' r') :
    ∃ r', Run step' ok' r (observe step acts s xs) r' ∧
      observe step' note' r (observe step acts s xs) = observe step note s xs ∧ R s' r' := by
  induction h generalizing r with
  | nil s => exact ⟨r, .nil r, rfl, hr⟩
  | cons hok hst _ ih =>
    obtain ⟨m, hm, hnote, hrel⟩ := hstep _ _ _ r hr hok hst
    obtain ⟨r', hrun, hnotes, hrel'⟩ := ih hrel
    refine ⟨r', ?_, ?_, hrel'⟩ <;> rw [observe, hst, Option.elim_some]
    · exact hm.append hrun
    · rw [hm.observe_append, hnote, hnotes, observe, hst, Option.elim_some]

/-! ### Answers that are the step itself, or leave it out -/

section
variable {step' : τ → α → Option τ} {ok' ok'' : τ → α → Prop} {keep : σ → α → Bool} {r' : τ} {x : α}

def kept (keep : σ → α → Bool) (s : σ) (x : α) : List α := if keep s x then [x] else []

theorem kept_of_true (h : keep s x = true) : kept keep s x = [x] := by rw [kept, h]; rfl

theorem kept_of_false (h : keep s x = false) : kept keep s x = [] := by rw [kept, h]; rfl

/-- Only the guard of that step is asked for. -/
theorem Run.kept_guard (h : Run step' ok' r (kept keep s x) r') (hx : ok'' r x) :
    Run step' ok'' r (kept keep s x) r' := by
  cases hk : keep s x with
  | true =>
    rw [kept_of_true hk] at h ⊢
    cases h with
    | cons _ hst hrest =>
      cases hrest
      exact .single hx hst
  | false =>
    rw [kept_of_false hk] at h ⊢
    cases h
    exact .nil r

theorem observe_kept_sublist (keep : σ → α → Bool) (s : σ) (xs : List α) :
    (observe step (kept keep) s xs).Sublist xs := by
  induction xs generalizing s with
  | nil => exact List.Sublist.refl _
  | cons x xs ih =>
    have hx : (kept keep s x).Sublist [x] := by
      rw [kept]
      split
      · exact List.Sublist.refl _
      · exact List.nil_sublist _
    rw [observe]
    refine hx.append ?_
    cases step s x with
    | none => exact List.nil_sublist xs
    | some m => exact ih m

theorem Run.observe_kept_filter (P : α → Bool) (hkeep : ∀ s x, P x = true → keep s x = true)
    (h : Run step ok s xs s') : (observe step (kept keep) s xs).filter P = xs.filter P := by
  induction h with
  | nil s => rfl
  | @cons s m s' x xs hok hst _ ih =>
    have hx : (kept keep s x).filter P = [x].filter P := by
      cases hk : keep s x with
      | true => rw [kept_of_true hk]
      | false =>
        have hP : P x ≠ true := by
          intro hx
          rw [hkeep s x hx] at hk
          cases hk
        rw [kept_of_false hk, List.filter_cons_of_neg hP]
    rw [observe, hst, Option.elim_some, List.filter_append, ih, hx, ← List.filter_append,
      List.singleton_append]

end

end Transition
