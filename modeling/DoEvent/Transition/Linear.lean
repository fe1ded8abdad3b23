import DoEvent.Transition.Run
import Mathlib.Algebra.Order.Ring.Nat
import Mathlib.Data.List.Nodup
import Mathlib.Data.Nat.Notation
import Mathlib.Logic.Function.Basic

/-!
# Histories and linearization points

Threads invoke operations on a shared object and get responses; a history is the list of
these events in the order in which they happen. It is linearizable when its operations can
be put in one order that keeps the order of operations that do not overlap and that a
sequential specification can follow. The usual way to show this is to name for every
operation the step at which it takes effect: `Commits` is a history with such points, and
`Commits.linearizable` says that the order of the points is an order of the operations.
-/

namespace Transition

variable {ι α β σ : Type*}

inductive HistoryEvent (ι α β : Type*) where
  | invoke (t : ι) (a : α)
  | respond (t : ι) (b : β)

/-- A completed operation, with the positions of its two events in the history. -/
structure Operation (ι α β : Type*) where
  thread : ι
  input : α
  output : β
  start : ℕ
  stop : ℕ

/-- Operations executed one after the other. -/
inductive Serial (spec : σ → ι → α → β → σ → Prop) : σ → List (Operation ι α β) → σ → Prop where
  | nil (q : σ) : Serial spec q [] q
  | cons {q q' q'' : σ} {o : Operation ι α β} {os : List (Operation ι α β)}
      (hspec : spec q o.thread o.input o.output q') (hrest : Serial spec q' os q'') :
      Serial spec q (o :: os) q''

/-- The later operation of an order does not end before the earlier one starts. -/
def InOrder (x y : Operation ι α β) : Prop := ¬ y.stop < x.start

inductive Status (α β : Type*) where
  | idle
  | pending (a : α)
  | done (a : α) (b : β)

def Status.input : Status α β → Option α
  | .idle => none
  | .pending a | .done a _ => some a

/-- The threads that have committed and wait for their response, in the order of commits. -/
structure Committed (st : ι → Status α β) (dl : List ι) : Prop where
  nodup : dl.Nodup
  mem : ∀ t, t ∈ dl ↔ ∃ a b, st t = .done a b

theorem Committed.not_mem {st : ι → Status α β} {dl : List ι} {t : ι} {a : α} (hd : Committed st dl)
    (ht : st t = .pending a) : t ∉ dl := by
  intro hm
  obtain ⟨x, y, hxy⟩ := (hd.mem t).mp hm
  rw [ht] at hxy
  cases hxy

/-- The values `f` of the operations as tokens of their threads. -/
def shares (f : α → β → ℕ) (os : List (Operation ι α β)) : List ι :=
  os.flatMap fun o => List.replicate (f o.input o.output) o.thread

theorem length_shares (f : α → β → ℕ) (os : List (Operation ι α β)) :
    (shares f os).length = (os.map fun o => f o.input o.output).sum := by
  simp [shares, List.length_flatMap]

section
variable [DecidableEq ι]

/-- The operations that get their response in the history `h`, from position `n` on, when
`pending` are the invocations still without response. -/
def operationsFrom (n : ℕ) (pending : ι → Option (α × ℕ)) :
    List (HistoryEvent ι α β) → List (Operation ι α β)
  | [] => []
  | .invoke t a :: h => operationsFrom (n + 1) (Function.update pending t (some (a, n))) h
  | .respond t b :: h =>
    match pending t with
    | none => operationsFrom (n + 1) pending h
    | some (a, j) => ⟨t, a, b, j, n⟩ :: operationsFrom (n + 1) (Function.update pending t none) h

def operations (h : List (HistoryEvent ι α β)) : List (Operation ι α β) :=
  operationsFrom 0 (fun _ => none) h

def pendingFrom (n : ℕ) (pending : ι → Option (α × ℕ)) :
    List (HistoryEvent ι α β) → ι → Option (α × ℕ)
  | [] => pending
  | .invoke t a :: h => pendingFrom (n + 1) (Function.update pending t (some (a, n))) h
  | .respond t _ :: h => pendingFrom (n + 1) (Function.update pending t none) h

/-- The invocations without response in the history `h`. -/
def pending (h : List (HistoryEvent ι α β)) : ι → Option (α × ℕ) := pendingFrom 0 (fun _ => none) h

theorem pendingFrom_append (n : ℕ) (p : ι → Option (α × ℕ)) (h h' : List (HistoryEvent ι α β)) :
    pendingFrom n p (h ++ h') = pendingFrom (n + h.length) (pendingFrom n p h) h' := by
  induction h generalizing n p with
  | nil => rfl
  | cons x h ih =>
    cases x <;> simp only [List.cons_append, pendingFrom, ih, List.length_cons, Nat.add_assoc,
      Nat.add_comm 1]

theorem operationsFrom_append (n : ℕ) (p : ι → Option (α × ℕ)) (h h' : List (HistoryEvent ι α β)) :
    operationsFrom n p (h ++ h') =
      operationsFrom n p h ++ operationsFrom (n + h.length) (pendingFrom n p h) h' := by
  induction h generalizing n p with
  | nil => rfl
  | cons x h ih =>
    cases x with
    | invoke t a =>
      simp only [List.cons_append, operationsFrom, pendingFrom, ih, List.length_cons, Nat.add_assoc,
        Nat.add_comm 1]
    | respond t b =>
      simp only [List.cons_append, operationsFrom, pendingFrom, ih, List.length_cons, Nat.add_assoc,
        Nat.add_comm 1]
      cases hp : p t with
      | none =>
        have hsame : Function.update p t none = p := hp ▸ Function.update_eq_self t p
        rw [hsame]
      | some x => rfl

section
variable {h : List (HistoryEvent ι α β)} {t : ι} {a : α} {b : β}

theorem pending_invoke :
    pending (h ++ [.invoke t a]) = Function.update (pending h) t (some (a, h.length)) := by
  rw [pending, pendingFrom_append, Nat.zero_add]
  rfl

theorem pending_respond :
    pending (h ++ [.respond t b]) = Function.update (pending h) t none := by
  rw [pending, pendingFrom_append]
  rfl

theorem operations_invoke : operations (h ++ [.invoke t a]) = operations h := by
  rw [operations, operationsFrom_append]
  exact List.append_nil _

theorem operations_respond {j : ℕ} (hp : pending h t = some (a, j)) :
    operations (h ++ [.respond t b]) = operations h ++ [⟨t, a, b, j, h.length⟩] := by
  rw [pending] at hp
  rw [operations, operationsFrom_append, Nat.zero_add]
  simp only [operationsFrom, hp]
  rfl

end

theorem count_shares_append (f : α → β → ℕ) (os : List (Operation ι α β)) (o : Operation ι α β)
    (t : ι) : (shares f (os ++ [o])).count t =
      (shares f os).count t + if t = o.thread then f o.input o.output else 0 := by
  simp only [shares, List.flatMap_append, List.count_append, List.flatMap_cons, List.flatMap_nil,
    List.append_nil, List.count_replicate, beq_iff_eq, eq_comm (a := t)]

/-- The operations of the history `h` take the specification from `q` to `q'` in some order
that respects real time. -/
def Linearizable (spec : σ → ι → α → β → σ → Prop) (q : σ) (h : List (HistoryEvent ι α β))
    (q' : σ) : Prop :=
  ∃ order, order.Perm (operations h) ∧ order.Pairwise InOrder ∧ Serial spec q order q'

/-- An operation has been invoked in the history. -/
theorem invoke_of_operationsFrom {n : ℕ} {pending : ι → Option (α × ℕ)}
    {h : List (HistoryEvent ι α β)} {o : Operation ι α β} (ho : o ∈ operationsFrom n pending h) :
    .invoke o.thread o.input ∈ h ∨ ∃ j, pending o.thread = some (o.input, j) := by
  induction h generalizing n pending with
  | nil => cases ho
  | cons x h ih =>
    cases x with
    | invoke t a =>
      rcases ih ho with hmem | ⟨j, hj⟩
      · exact .inl (List.mem_cons_of_mem _ hmem)
      · rw [Function.update_apply] at hj
        split_ifs at hj with ht
        · cases hj
          exact .inl (ht ▸ List.mem_cons_self ..)
        · exact .inr ⟨j, hj⟩
    | respond t b =>
      rw [operationsFrom] at ho
      cases hp : pending t with
      | none =>
        rw [hp] at ho
        exact (ih ho).imp_left (List.mem_cons_of_mem _)
      | some x =>
        rw [hp] at ho
        rcases List.mem_cons.mp ho with rfl | ho
        · exact .inr ⟨x.2, hp⟩
        · rcases ih ho with hmem | ⟨j, hj⟩
          · exact .inl (List.mem_cons_of_mem _ hmem)
          · rw [Function.update_apply] at hj
            split_ifs at hj
            exact .inr ⟨j, hj⟩

theorem invoke_of_operations {h : List (HistoryEvent ι α β)} {o : Operation ι α β}
    (ho : o ∈ operations h) : .invoke o.thread o.input ∈ h := by
  rcases invoke_of_operationsFrom ho with hmem | ⟨j, hj⟩
  · exact hmem
  · cases hj

/-- A specification that another one implements, for operations of a kind and in states that
keep an invariant, linearizes the same histories. -/
theorem Linearizable.map {τ : Type*} {spec : σ → ι → α → β → σ → Prop}
    {spec' : τ → ι → α → β → τ → Prop} {q q' : σ} {h : List (HistoryEvent ι α β)}
    (hlin : Linearizable spec q h q') (f : σ → τ) (I : σ → Prop) (P : ι → α → Prop) (hq : I q)
    (hP : ∀ t a, .invoke t a ∈ h → P t a)
    (hspec : ∀ q t a b q', I q → P t a → spec q t a b q' → spec' (f q) t a b (f q') ∧ I q') :
    Linearizable spec' (f q) h (f q') := by
  obtain ⟨order, hperm, hpairs, hserial⟩ := hlin
  have hall : ∀ o ∈ order, P o.thread o.input := fun o ho =>
    hP _ _ (invoke_of_operations (hperm.subset ho))
  refine ⟨order, hperm, hpairs, ?_⟩
  clear hperm hpairs
  induction hserial with
  | nil q => exact .nil (f q)
  | cons hstep _ ih =>
    obtain ⟨hstep', hq'⟩ := hspec _ _ _ _ _ hq (hall _ (List.mem_cons_self ..)) hstep
    exact .cons hstep' (ih hq' fun o ho => hall o (List.mem_cons_of_mem _ ho))

/-! ### Linearization points -/

/-- A history in which every operation takes effect at a point between its events. -/
inductive Commits (spec : σ → ι → α → β → σ → Prop) :
    (ι → Status α β) → σ → List (HistoryEvent ι α β) → (ι → Status α β) → σ → Prop where
  | nil (st : ι → Status α β) (q : σ) : Commits spec st q [] st q
  | invoke {st st' : ι → Status α β} {q q' : σ} {h : List (HistoryEvent ι α β)} {t : ι} {a : α}
      (ht : st t = .idle) (hrest : Commits spec (Function.update st t (.pending a)) q h st' q') :
      Commits spec st q (.invoke t a :: h) st' q'
  | commit {st st' : ι → Status α β} {q q₁ q' : σ} {h : List (HistoryEvent ι α β)} {t : ι} {a : α}
      {b : β} (ht : st t = .pending a) (hspec : spec q t a b q₁)
      (hrest : Commits spec (Function.update st t (.done a b)) q₁ h st' q') :
      Commits spec st q h st' q'
  | respond {st st' : ι → Status α β} {q q' : σ} {h : List (HistoryEvent ι α β)} {t : ι} {a : α}
      {b : β} (ht : st t = .done a b) (hrest : Commits spec (Function.update st t .idle) q h st' q') :
      Commits spec st q (.respond t b :: h) st' q'

variable {spec : σ → ι → α → β → σ → Prop} {st st' st'' : ι → Status α β} {q q' q'' : σ}
  {h h' : List (HistoryEvent ι α β)}

theorem Commits.append (hc : Commits spec st q h st' q') (hc' : Commits spec st' q' h' st'' q'') :
    Commits spec st q (h ++ h') st'' q'' := by
  induction hc with
  | nil => exact hc'
  | invoke ht _ ih => exact .invoke ht (ih hc')
  | commit ht hspec _ ih => exact .commit ht hspec (ih hc')
  | respond ht _ ih => exact .respond ht (ih hc')

/-- Every operation under way has its invocation among the pending ones. -/
def Tracks (st : ι → Status α β) (n : ℕ) (pending : ι → Option (α × ℕ)) : Prop :=
  ∀ t a, (st t).input = some a → ∃ j, j < n ∧ pending t = some (a, j)

theorem Tracks.update {n n' : ℕ} {pending pending' : ι → Option (α × ℕ)} (hp : Tracks st n pending)
    (hn : n ≤ n') {t : ι} {x : Status α β} (hother : ∀ u, u ≠ t → pending' u = pending u)
    (hself : ∀ a, x.input = some a → ∃ j, j < n' ∧ pending' t = some (a, j)) :
    Tracks (Function.update st t x) n' pending' := by
  intro u a hu
  by_cases hut : u = t
  · subst hut
    exact hself a (by simpa using hu)
  · rw [Function.update_of_ne hut] at hu
    obtain ⟨j, hj, hpu⟩ := hp u a hu
    exact ⟨j, by omega, by rw [hother u hut, hpu]⟩

theorem Committed.invoke {dl : List ι} {t : ι} {a : α} (hd : Committed st dl) (ht : st t = .idle) :
    Committed (Function.update st t (.pending a)) dl := by
  refine ⟨hd.nodup, fun u => ?_⟩
  rw [hd.mem]
  by_cases hu : u = t
  · subst hu
    simp [ht]
  · simp [hu]

theorem Committed.commit {dl : List ι} {t : ι} {a : α} {b : β} (hd : Committed st dl)
    (ht : st t = .pending a) : Committed (Function.update st t (.done a b)) (dl ++ [t]) := by
  refine ⟨List.nodup_append.mpr ⟨hd.nodup, List.nodup_singleton t, ?_⟩, fun u => ?_⟩
  · intro x hx y hy hxy
    rw [List.mem_singleton] at hy
    exact hd.not_mem ht (hy ▸ hxy ▸ hx)
  · rw [List.mem_append, List.mem_singleton, hd.mem]
    by_cases hu : u = t
    · subst hu
      simp
    · simp [hu]

theorem Committed.respond {l₁ l₂ : List ι} {t : ι} (hd : Committed st (l₁ ++ t :: l₂)) :
    Committed (Function.update st t .idle) (l₁ ++ l₂) := by
  obtain ⟨htl, hnodup⟩ := List.nodup_cons.mp (List.nodup_middle.mp hd.nodup)
  refine ⟨hnodup, fun u => ?_⟩
  by_cases hu : u = t
  · subst hu
    simpa using htl
  · have hmem := hd.mem u
    simp only [List.mem_append, List.mem_cons, hu, false_or] at hmem
    simpa [hu] using hmem

/-- The operations that respond in `h`, arranged: first those of the threads in `dl`, which
have committed, and then those that have their points still to come. -/
structure Arranged (st : ι → Status α β) (n : ℕ) (pending : ι → Option (α × ℕ)) (dl : List ι)
    (h : List (HistoryEvent ι α β)) (first later : List (Operation ι α β)) : Prop where
  threads : first.map Operation.thread = dl
  committed : ∀ o ∈ first, st o.thread = .done o.input o.output ∧
    pending o.thread = some (o.input, o.start)
  stop : ∀ o ∈ first ++ later, n ≤ o.stop
  inOrder : (first ++ later).Pairwise InOrder
  perm : (first ++ later).Perm (operationsFrom n pending h)

section
variable {n : ℕ} {pending : ι → Option (α × ℕ)} {dl : List ι} {first later : List (Operation ι α β)}
  {t : ι} {a : α} {b : β}

/-- A thread that has not committed has no operation among the first. -/
theorem Arranged.unaffected {x : Status α β} {y : Option (α × ℕ)} {o : Operation ι α β}
    (ha : Arranged (Function.update st t x) n (Function.update pending t y) dl h first later)
    (hx : ∀ a b, x ≠ .done a b) (ho : o ∈ first) :
    st o.thread = .done o.input o.output ∧ pending o.thread = some (o.input, o.start) := by
  obtain ⟨hst, hpo⟩ := ha.committed o ho
  have hne : o.thread ≠ t := by
    intro he
    rw [he, Function.update_self] at hst
    exact hx _ _ hst
  rw [Function.update_of_ne hne] at hst hpo
  exact ⟨hst, hpo⟩

theorem Arranged.invoke
    (ha : Arranged (Function.update st t (.pending a)) (n + 1)
      (Function.update pending t (some (a, n))) dl h first later) :
    Arranged st n pending dl (.invoke t a :: h) first later := by
  refine ⟨ha.threads, fun o ho => ha.unaffected (fun a b he => ?_) ho,
    fun o ho => Nat.le_of_succ_le (ha.stop o ho), ha.inOrder, ha.perm⟩
  cases he

theorem Arranged.commit (ht : t ∉ dl)
    (ha : Arranged (Function.update st t (.done a b)) n pending (dl ++ [t]) h first later) :
    ∃ first' o, o.thread = t ∧ o.input = a ∧ o.output = b ∧
      Arranged st n pending dl h first' (o :: later) := by
  obtain ⟨first', last, rfl, hdl, hlast⟩ := List.map_eq_append_iff.mp ha.threads
  obtain ⟨o, rfl, hot⟩ := List.map_eq_singleton_iff.mp hlast
  have hdone := (ha.committed o (by simp)).1
  rw [hot, Function.update_self] at hdone
  injection hdone with hin hout
  have happ : first' ++ [o] ++ later = first' ++ o :: later := by simp
  refine ⟨first', o, hot, hin.symm, hout.symm, hdl, fun o' ho' => ?_, happ ▸ ha.stop,
    happ ▸ ha.inOrder, happ ▸ ha.perm⟩
  obtain ⟨hst, hpo⟩ := ha.committed o' (List.mem_append_left _ ho')
  have hne : o'.thread ≠ t := by
    rintro rfl
    exact ht (hdl ▸ List.mem_map_of_mem ho')
  rw [Function.update_of_ne hne] at hst
  exact ⟨hst, hpo⟩

theorem Arranged.respond {l₁ l₂ : List ι} (ht : st t = .done a b) (hp : Tracks st n pending)
    (ha : Arranged (Function.update st t .idle) (n + 1) (Function.update pending t none) (l₁ ++ l₂) h
      first later) :
    ∃ first', Arranged st n pending (l₁ ++ t :: l₂) (.respond t b :: h) first' later := by
  obtain ⟨j, hj, hpt⟩ := hp t a (by rw [ht]; rfl)
  obtain ⟨f₁, f₂, rfl, hf₁, hf₂⟩ := List.map_eq_append_iff.mp ha.threads
  have hold : ∀ o ∈ f₁ ++ f₂, st o.thread = .done o.input o.output ∧
      pending o.thread = some (o.input, o.start) := by
    refine fun o ho => ha.unaffected (fun a b he => ?_) ho
    cases he
  have hstart : ∀ o ∈ f₁ ++ f₂, o.start < n := by
    intro o ho
    obtain ⟨hst, hpo⟩ := hold o ho
    obtain ⟨i, hi, hpi⟩ := hp o.thread o.input (by rw [hst]; rfl)
    rw [hpo] at hpi
    cases hpi
    exact hi
  have hstop := ha.stop
  have hinOrder := ha.inOrder
  have hperm := ha.perm
  rw [List.append_assoc] at hstop hinOrder hperm
  obtain ⟨hord₁, hord₂, hcross⟩ := List.pairwise_append.mp hinOrder
  refine ⟨f₁ ++ ⟨t, a, b, j, n⟩ :: f₂, by simp [hf₁, hf₂], ?_, ?_, ?_, ?_⟩
  · intro o ho
    rw [List.mem_append, List.mem_cons] at ho
    rcases ho with ho | rfl | ho
    · exact hold o (List.mem_append_left _ ho)
    · exact ⟨ht, hpt⟩
    · exact hold o (List.mem_append_right _ ho)
  · intro o ho
    rw [List.append_assoc, List.cons_append, List.mem_append, List.mem_cons] at ho
    rcases ho with ho | rfl | ho
    · exact Nat.le_of_succ_le (hstop o (List.mem_append_left _ ho))
    · exact Nat.le_refl n
    · exact Nat.le_of_succ_le (hstop o (List.mem_append_right _ ho))
  · rw [List.append_assoc, List.cons_append, List.pairwise_append]
    refine ⟨hord₁, List.pairwise_cons.mpr ⟨fun y hy => ?_, hord₂⟩, fun x hx y hy => ?_⟩
    · -- Whatever stands after the new operation responds later than it does.
      have hlate := hstop y (List.mem_append_right _ hy)
      simp only [InOrder]
      omega
    · rcases List.mem_cons.mp hy with rfl | hy
      · -- Whatever stands before it was invoked before it responds.
        have hearly := hstart x (List.mem_append_left _ hx)
        simp only [InOrder]
        omega
      · exact hcross x hx y hy
  · rw [operationsFrom, hpt, List.append_assoc, List.cons_append]
    exact List.perm_middle.trans (hperm.cons _)

end

/-- From any point of a history with linearization points: the operations still to respond
can be arranged, and those still to commit follow the specification. -/
theorem Commits.arranged (hc : Commits spec st q h st' q') (hend : ∀ t, st' t = .idle) (n : ℕ)
    (pending : ι → Option (α × ℕ)) (hp : Tracks st n pending) (dl : List ι)
    (hd : Committed st dl) :
    ∃ first later, Arranged st n pending dl h first later ∧ Serial spec q later q' := by
  -- From the end of the history to its start. The operations of `dl` have passed their points,
  -- so they come before all those in `later`, in the order of `dl`.
  induction hc generalizing n pending dl with
  | nil st q =>
    have hnil : dl = [] := by
      refine List.eq_nil_iff_forall_not_mem.mpr fun t ht => ?_
      obtain ⟨a, b, hab⟩ := (hd.mem t).mp ht
      rw [hend t] at hab
      cases hab
    exact ⟨[], [], ⟨hnil.symm, by simp, by simp, .nil, .refl _⟩, .nil q⟩
  | @invoke st st' q q' h t a ht _ ih =>
    have hp' : Tracks (Function.update st t (.pending a)) (n + 1)
        (Function.update pending t (some (a, n))) := by
      refine hp.update (Nat.le_succ n) (fun u hu => Function.update_of_ne hu _ _) fun c hc => ?_
      cases hc
      exact ⟨n, Nat.lt_succ_self n, Function.update_self ..⟩
    obtain ⟨first, later, ha, hserial⟩ := ih hend _ _ hp' dl (hd.invoke ht)
    exact ⟨first, later, ha.invoke, hserial⟩
  | @commit st st' q q₁ q' h t a b ht hspec _ ih =>
    have hp' : Tracks (Function.update st t (.done a b)) n pending :=
      hp.update (Nat.le_refl n) (fun _ _ => rfl) fun c hc => hp t c (by rw [ht]; exact hc)
    obtain ⟨first, later, ha, hserial⟩ := ih hend n pending hp' (dl ++ [t]) (hd.commit ht)
    -- The operation of `t`, last of the first group after its point, heads the later one before.
    obtain ⟨first', o, rfl, rfl, rfl, ha'⟩ := ha.commit (hd.not_mem ht)
    exact ⟨first', o :: later, ha', .cons hspec hserial⟩
  | @respond st st' q q' h t a b ht _ ih =>
    have hp' : Tracks (Function.update st t .idle) (n + 1) (Function.update pending t none) :=
      hp.update (Nat.le_succ n) (fun u hu => Function.update_of_ne hu _ _) fun c hc => by cases hc
    obtain ⟨l₁, l₂, rfl⟩ := List.append_of_mem ((hd.mem t).mpr ⟨a, b, ht⟩)
    obtain ⟨first, later, ha, hserial⟩ := ih hend _ _ hp' (l₁ ++ l₂) hd.respond
    obtain ⟨first', ha'⟩ := ha.respond ht hp
    exact ⟨first', later, ha', hserial⟩

theorem Commits.linearizable (hc : Commits spec (fun _ => .idle) q h st' q')
    (hend : ∀ t, st' t = .idle) : Linearizable spec q h q' := by
  have htracks : Tracks (fun _ : ι => (.idle : Status α β)) 0 fun _ => none :=
    fun t a ha => by cases ha
  have hnobody : Committed (fun _ : ι => (.idle : Status α β)) [] := ⟨List.nodup_nil, by simp⟩
  obtain ⟨first, later, ha, hserial⟩ := hc.arranged hend 0 _ htracks [] hnobody
  have hnil : first = [] := List.map_eq_nil_iff.mp ha.threads
  subst hnil
  exact ⟨later, ha.perm, ha.inOrder, hserial⟩

/-- A machine whose steps are matched by linearization points. -/
theorem Run.commits {τ γ : Type*} {step : τ → γ → Option τ} {ok : τ → γ → Prop} {s s' : τ}
    {xs : List γ} (hrun : Run step ok s xs s') (obs : τ → γ → List (HistoryEvent ι α β))
    (R : τ → (ι → Status α β) → σ → Prop) (hR : R s st q)
    (hstep : ∀ s x s' st q, R s st q → ok s x → step s x = some s' →
      ∃ st' q', Commits spec st q (obs s x) st' q' ∧ R s' st' q') :
    ∃ st' q', Commits spec st q (observe step obs s xs) st' q' ∧ R s' st' q' := by
  induction hrun generalizing st q with
  | nil s => exact ⟨st, q, .nil st q, hR⟩
  | cons hok hst _ ih =>
    obtain ⟨st₁, q₁, hc₁, hR₁⟩ := hstep _ _ _ _ _ hR hok hst
    obtain ⟨st₂, q₂, hc₂, hR₂⟩ := ih hR₁
    refine ⟨st₂, q₂, ?_, hR₂⟩
    rw [observe, hst, Option.elim_some]
    exact hc₁.append hc₂

end

end Transition
