import Mathlib.Tactic.SplitIfs

/-!
# Guarded runs of a labelled transition function

A machine is a partial function `step : σ → α → Option σ`. A run is a list of actions,
each of which is enabled and meets a guard `ok` in the state in which it is taken. The
guard carries whatever a result assumes about the schedule: which calls are made, which
conditions hold before a step. An invariant is proved for one guarded step and then
holds along every guarded run.
-/

namespace Transition

variable {σ α : Type*}

/-- The actions `xs` lead from the first state to the last, each meeting `ok` when taken. -/
inductive Run (step : σ → α → Option σ) (ok : σ → α → Prop) : σ → List α → σ → Prop where
  | nil (s : σ) : Run step ok s [] s
  | cons {s s' s'' : σ} {x : α} {xs : List α} (hok : ok s x) (hstep : step s x = some s')
      (hrest : Run step ok s' xs s'') : Run step ok s (x :: xs) s''

/-- Execution of a list of actions under an executable guard. -/
def steps (step : σ → α → Option σ) (ok : σ → α → Bool) : σ → List α → Option σ
  | s, [] => some s
  | s, x :: xs => if ok s x then (step s x).bind fun s' => steps step ok s' xs else none

/-- What an observer notes down along a list of actions; `obs` gives the notes of one step. -/
def observe {β : Type*} (step : σ → α → Option σ) (obs : σ → α → List β) : σ → List α → List β
  | _, [] => []
  | s, x :: xs => obs s x ++ (step s x).elim [] fun s' => observe step obs s' xs

section
variable {step : σ → α → Option σ} {ok ok' : σ → α → Prop} {s s' s'' : σ} {x : α} {xs ys : List α}

theorem Run.single (hok : ok s x) (hstep : step s x = some s') : Run step ok s [x] s' :=
  .cons hok hstep (.nil s')

theorem Run.append (h : Run step ok s xs s') (h' : Run step ok s' ys s'') :
    Run step ok s (xs ++ ys) s'' := by
  induction h with
  | nil s => exact h'
  | cons hok hstep _ ih => exact .cons hok hstep (ih h')

theorem Run.split (h : Run step ok s (xs ++ ys) s'') :
    ∃ s', Run step ok s xs s' ∧ Run step ok s' ys s'' := by
  induction xs generalizing s with
  | nil => exact ⟨s, .nil s, h⟩
  | cons x xs ih =>
    cases h with
    | cons hok hstep hrest =>
      obtain ⟨m, hm, hr⟩ := ih hrest
      exact ⟨m, .cons hok hstep hm, hr⟩

theorem Run.functional (h : Run step ok s xs s') (h' : Run step ok' s xs s'') : s' = s'' := by
  induction h with
  | nil s =>
    cases h'
    rfl
  | cons _ hstep _ ih =>
    cases h' with
    | cons _ hstep' hrest' =>
      rw [hstep] at hstep'
      cases hstep'
      exact ih hrest'

theorem Run.mono (h : Run step ok s xs s') (hsub : ∀ s x, ok s x → ok' s x) :
    Run step ok' s xs s' := by
  induction h with
  | nil s => exact .nil s
  | cons hok hstep _ ih => exact .cons (hsub _ _ hok) hstep ih

/-- What is known of every action of a run may be added to the guard. -/
theorem Run.restrict (h : Run step ok s xs s') (P : α → Prop) (hP : ∀ x ∈ xs, P x) :
    Run step (fun s x => ok s x ∧ P x) s xs s' := by
  induction h with
  | nil s => exact .nil s
  | cons hok hst _ ih =>
    exact .cons ⟨hok, hP _ (List.mem_cons_self ..)⟩ hst
      (ih fun y hy => hP y (List.mem_cons_of_mem _ hy))

/-- The invariant rule: what one guarded step keeps, every guarded run keeps. -/
theorem Run.invariant (h : Run step ok s xs s') (I : σ → Prop) (hs : I s)
    (hstep : ∀ s x s', I s → ok s x → step s x = some s' → I s') : I s' := by
  induction h with
  | nil s => exact hs
  | cons hok hst _ ih => exact ih (hstep _ _ _ hs hok hst)

/-- An invariant may be added to the guard, so that later proofs can use it at each step. -/
theorem Run.strengthen (h : Run step ok s xs s') (I : σ → Prop) (hs : I s)
    (hstep : ∀ s x s', I s → ok s x → step s x = some s' → I s') :
    Run step (fun s x => ok s x ∧ I s) s xs s' := by
  induction h with
  | nil s => exact .nil s
  | cons hok hst _ ih => exact .cons ⟨hok, hs⟩ hst (ih (hstep _ _ _ hs hok hst))

/-- What every step keeps unless it is an `E` step holds at the end of a run, or the run
contains an `E` step. -/
theorem Run.keep_or (h : Run step ok s xs s') (Q : σ → Prop) (E : σ → α → Prop) (hs : Q s)
    (hstep : ∀ s x s', Q s → ok s x → step s x = some s' → Q s' ∨ E s x) :
    Q s' ∨ ∃ ys x zs m, xs = ys ++ x :: zs ∧ Run step ok s ys m ∧ E m x := by
  induction h with
  | nil s => exact .inl hs
  | @cons s m s' x xs hok hst _ ih =>
    rcases hstep _ _ _ hs hok hst with hq | he
    · rcases ih hq with hq | ⟨ys, y, zs, n, rfl, hr, he⟩
      · exact .inl hq
      · exact .inr ⟨x :: ys, y, zs, n, rfl, .cons hok hst hr, he⟩
    · exact .inr ⟨[], x, xs, s, rfl, .nil s, he⟩

/-- The invariant rule for a state together with what two observers have noted down. -/
theorem Run.observed_two {β γ : Type*} (obs : σ → α → List β) (obs' : σ → α → List γ)
    (h : Run step ok s xs s') (I : List β → List γ → σ → Prop) {l : List β} (l' : List γ)
    (hs : I l l' s)
    (hstep : ∀ l l' s x s', I l l' s → ok s x → step s x = some s' →
      I (l ++ obs s x) (l' ++ obs' s x) s') :
    I (l ++ observe step obs s xs) (l' ++ observe step obs' s xs) s' := by
  induction h generalizing l l' with
  | nil s =>
    rw [observe, observe, List.append_nil, List.append_nil]
    exact hs
  | cons hok hst _ ih =>
    rw [observe, observe, hst, Option.elim_some, Option.elim_some, ← List.append_assoc,
      ← List.append_assoc]
    exact ih _ (hstep _ _ _ _ _ hs hok hst)

theorem Run.observed {β : Type*} (obs : σ → α → List β) (h : Run step ok s xs s')
    (I : List β → σ → Prop) {l : List β} (hs : I l s)
    (hstep : ∀ l s x s', I l s → ok s x → step s x = some s' → I (l ++ obs s x) s') :
    I (l ++ observe step obs s xs) s' :=
  h.observed_two obs obs (fun l _ s => I l s) [] hs fun l _ s x s' => hstep l s x s'

theorem Run.observe_append {β : Type*} (obs : σ → α → List β) (h : Run step ok s xs s') :
    observe step obs s (xs ++ ys) = observe step obs s xs ++ observe step obs s' ys := by
  induction h with
  | nil s => rfl
  | cons hok hst _ ih =>
    rw [List.cons_append, observe, observe, hst, Option.elim_some, Option.elim_some, ih,
      List.append_assoc]

/-- Whatever is noted down is noted down at some action. -/
theorem mem_observe {β : Type*} {obs : σ → α → List β} {y : β} (h : y ∈ observe step obs s xs) :
    ∃ m, ∃ x ∈ xs, y ∈ obs m x := by
  induction xs generalizing s with
  | nil => cases h
  | cons x xs ih =>
    rw [observe, List.mem_append] at h
    rcases h with h | h
    · exact ⟨s, x, List.mem_cons_self .., h⟩
    · cases hs : step s x with
      | none =>
        rw [hs] at h
        cases h
      | some s' =>
        rw [hs] at h
        obtain ⟨m, z, hz, hy⟩ := ih h
        exact ⟨m, z, List.mem_cons_of_mem _ hz, hy⟩

/-- Notes that are taken from the actions alone. -/
theorem Run.observe_action {β : Type*} (f : α → List β) (h : Run step ok s xs s') :
    observe step (fun _ x => f x) s xs = xs.flatMap f := by
  induction h with
  | nil s => rfl
  | cons hok hst _ ih => rw [observe, hst, Option.elim_some, ih, List.flatMap_cons]

/-- An executed list of actions is a run under every guard that the executable one implies. -/
theorem Run.of_steps (check : σ → α → Bool) (h : steps step check s xs = some s')
    (hok : ∀ s x, check s x = true → ok s x) : Run step ok s xs s' := by
  induction xs generalizing s with
  | nil =>
    have he : s = s' := Option.some.inj h
    subst he
    exact .nil s
  | cons x xs ih =>
    simp only [steps] at h
    split_ifs at h with hc
    obtain ⟨m, hm, hr⟩ := Option.bind_eq_some_iff.mp h
    exact .cons (hok s x hc) hm (ih hr)

/-- The same where the guard needs more than the check, which an invariant supplies. -/
theorem Run.of_steps_invariant (check : σ → α → Bool) (I : σ → Prop)
    (h : steps step check s xs = some s') (hs : I s)
    (hstep : ∀ s x s', I s → check s x = true → step s x = some s' → I s')
    (hok : ∀ s x, I s → check s x = true → ok s x) : Run step ok s xs s' ∧ I s' := by
  have hr : Run step (fun s x => check s x = true) s xs s' := .of_steps check h fun _ _ h => h
  exact ⟨(hr.strengthen I hs hstep).mono fun s x hx => hok s x hx.2 hx.1, hr.invariant I hs hstep⟩

/-- A test on the last state of an execution gives a run that ends in such a state. -/
theorem Run.of_test (check : σ → α → Bool) (test : σ → Bool)
    (h : (steps step check s xs).map test = some true) (hok : ∀ s x, check s x = true → ok s x) :
    ∃ s', Run step ok s xs s' ∧ test s' = true := by
  obtain ⟨s', hs, ht⟩ := Option.map_eq_some_iff.mp h
  exact ⟨s', .of_steps check hs hok, ht⟩

end

end Transition
