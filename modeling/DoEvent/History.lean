import DoEvent.Frame
import DoEvent.Transition.Linear

/-!
# The calls of a run and their values

The history of a run: a task enters a call, a task returns. `Doing` says that the call a
task is in, as its program counter tells, is the one that the history has without response.
-/

namespace DoEvent

open Transition

abbrev CallHistory := List (HistoryEvent Task (Cred × Call) (Int × UserMem))

/-- The events of a history: a task enters a call, and a task returns with a value and with
what the call has left in its memory. -/
def callEvents (s : State) : Action → List (HistoryEvent Task (Cred × Call) (Int × UserMem))
  | .call t c k => [.invoke t (c, k)]
  | .run t =>
    match s.pc t with
    | .ret r => [.respond t (r, s.user t)]
    | _ => []
  | _ => []

/-- The call that task `t` has made and that has not returned. -/
def pendingCall (h : CallHistory) (t : Task) : Option (Cred × Call) := (pending h t).map Prod.fst

/-- Outside a call, or inside the call `k` at a place that belongs to it. -/
def Doing : Option (Cred × Call) → Pc → Prop
  | none, p => p = .user
  | some (_, k), p => p ≠ .user ∧ ∀ q, p.kind = some q → k.kind = q

/-- Every task is in the call that the history has without response. -/
def Follows (h : CallHistory) (s : State) : Prop := ∀ t, Doing (pendingCall h t) (s.pc t)

/-- A step begins a call, ends one, or goes on inside it. -/
theorem callEvents_cases {s : State} {x : Action} {e : Effect} {p : Pc} (hm : Move s x e p) :
    (∃ c k, callEvents s x = [.invoke x.task (c, k)] ∧ s.pc x.task = .user ∧ p = entry c k ∧
      x = .call x.task c k) ∨
    (∃ r, callEvents s x = [.respond x.task (r, s.user x.task)] ∧ s.pc x.task = .ret r ∧ p = .user) ∨
    (callEvents s x = [] ∧ p = s.pc x.task) ∨
    (callEvents s x = [] ∧ (s.pc x.task).kind ≠ none ∧ p ≠ .user ∧
      ∀ q, p.kind = some q → (s.pc x.task).kind = some q) := by
  cases hm with
  | call t c k hpc => exact .inl ⟨c, k, rfl, hpc, rfl, rfl⟩
  | nomem t c hpc | kmalloc t c a hpc hfree =>
    refine .inr (.inr (.inr ⟨rfl, ?_, by simp, ?_⟩)) <;> simp [Action.task, hpc, Pc.kind]
  | posix t | deliver t hpc => exact .inr (.inr (.inl ⟨rfl, rfl⟩))
  | run t e p hrq hnext =>
    have hf := Flow.of_next hnext
    simp only [callEvents, Action.task]
    generalize hpc : s.pc t = q at hf
    cases hf with
    | ret r => exact .inr (.inl ⟨r, rfl, rfl, rfl⟩)
    | _ => exact .inr (.inr (.inr ⟨rfl, by simp [Pc.kind], by simp, by simp [Pc.kind]⟩))

theorem entry_ne_user (c : Cred) (k : Call) : entry c k ≠ .user := by
  cases k <;> simp only [entry] <;> (try split) <;> simp

section
variable {h : CallHistory} {s : State} {x : Action} {e : Effect} {p : Pc} {t : Task}

theorem pendingCall_invoke {a : Cred × Call} :
    pendingCall (h ++ [.invoke t a]) = Function.update (pendingCall h) t (some a) := by
  funext u
  by_cases hu : u = t <;> simp [pendingCall, pending_invoke, hu]

theorem pendingCall_respond {b : Int × UserMem} :
    pendingCall (h ++ [.respond t b]) = Function.update (pendingCall h) t none := by
  funext u
  by_cases hu : u = t <;> simp [pendingCall, pending_respond, hu]

/-- The step of another task leaves the call of `t` as it is. -/
theorem pendingCall_of_ne (hm : Move s x e p) (ht : t ≠ x.task) :
    pendingCall (h ++ callEvents s x) t = pendingCall h t := by
  rcases callEvents_cases hm with ⟨c, k, hev, _⟩ | ⟨r, hev, _⟩ | ⟨hev, _⟩ | ⟨hev, _⟩ <;> rw [hev]
  · rw [pendingCall_invoke, Function.update_of_ne ht]
  · rw [pendingCall_respond, Function.update_of_ne ht]
  · rw [List.append_nil]
  · rw [List.append_nil]

theorem Follows.move (hd : Follows h s) (hm : Move s x e p) :
    Follows (h ++ callEvents s x) ((apply s x.task e).goto x.task p) := by
  intro t
  by_cases ht : t = x.task
  · subst ht
    have hdt := hd x.task
    rw [goto_pc, Function.update_self]
    rcases callEvents_cases hm with ⟨c, k, hev, _, rfl, _⟩ | ⟨r, hev, _, rfl⟩ | ⟨hev, rfl⟩ |
      ⟨hev, hkind, hp, hq⟩ <;> rw [hev]
    · rw [pendingCall_invoke, Function.update_self]
      refine ⟨entry_ne_user c k, fun q hq => ?_⟩
      rcases entry_kind c k with hk | hk <;> rw [hk] at hq <;> cases hq
      rfl
    · rw [pendingCall_respond, Function.update_self]
      rfl
    · rwa [List.append_nil]
    · rw [List.append_nil]
      cases hk : pendingCall h x.task with
      | none =>
        rw [hk] at hdt
        have huser : s.pc x.task = .user := hdt
        exact absurd (by rw [huser]; rfl) hkind
      | some a =>
        rw [hk] at hdt
        exact ⟨hp, fun q hpq => hdt.2 q (hq q hpq)⟩
  · rw [pendingCall_of_ne hm ht]
    simpa [ht] using hd t

/-- The call of a task that steps on inside it. -/
theorem Follows.acting (hd : Follows h s) (hm : Move s x e p) {q : Kind}
    (hq : (s.pc x.task).kind = some q) :
    ∃ a, pendingCall (h ++ callEvents s x) x.task = some a ∧ a.2.kind = q := by
  have hnil : callEvents s x = [] := by
    rcases callEvents_cases hm with ⟨c, k, _, hu, _⟩ | ⟨r, _, hr, _⟩ | ⟨hev, _⟩ | ⟨hev, _⟩
    · rw [hu] at hq
      cases hq
    · rw [hr] at hq
      cases hq
    · exact hev
    · exact hev
  have hdt := hd x.task
  rw [hnil, List.append_nil]
  cases hk : pendingCall h x.task with
  | none =>
    rw [hk] at hdt
    have huser : s.pc x.task = .user := hdt
    rw [huser] at hq
    cases hq
  | some a =>
    rw [hk] at hdt
    exact ⟨a, rfl, hdt.2 q hq⟩

theorem Follows.ret {r : Int} (hd : Follows h s) (hpc : s.pc t = .ret r) :
    ∃ a j, pending h t = some (a, j) ∧ pendingCall h t = some a := by
  have hdt := hd t
  cases hp : pending h t with
  | none =>
    rw [pendingCall, hp, Option.map_none, hpc] at hdt
    cases hdt
  | some a => exact ⟨a.1, a.2, rfl, by rw [pendingCall, hp]; rfl⟩

end

/-! ### Values of calls, per task

`settled v` adds up the values `v` of a task's calls, those that have returned and the one
that has come to its return statement. -/

section
variable (v : Call → Int → ℕ)

def returnedValue (a : Cred × Call) (b : Int × UserMem) : ℕ := v a.2 b.1

/-- The value of a call that has come to its return statement. -/
def decidedValue (a : Option (Cred × Call)) : Pc → ℕ
  | .ret r => a.elim 0 fun a => v a.2 r
  | _ => 0

def settled (h : CallHistory) (s : State) (t : Task) : ℕ :=
  (shares (returnedValue v) (operations h)).count t + decidedValue v (pendingCall h t) (s.pc t)

/-- The sum of the values of all calls that have returned. -/
def totalValue (h : CallHistory) : ℕ :=
  ((operations h).map fun o => v o.input.2 o.output.1).sum

variable {v} {h : CallHistory} {s : State} {x : Action} {e : Effect} {p : Pc}

theorem count_shares_of_ne {f : Cred × Call → Int × UserMem → ℕ}
    (hd : Follows h s) (hm : Move s x e p) {t : Task} (ht : t ≠ x.task) :
    (shares f (operations (h ++ callEvents s x))).count t = (shares f (operations h)).count t := by
  rcases callEvents_cases hm with ⟨c, k, hev, _⟩ | ⟨r, hev, hr, _⟩ | ⟨hev, _⟩ | ⟨hev, _⟩ <;> rw [hev]
  · rw [operations_invoke]
  · obtain ⟨a, j, hp, _⟩ := hd.ret hr
    rw [operations_respond hp, count_shares_append, if_neg ht, Nat.add_zero]
  · rw [List.append_nil]
  · rw [List.append_nil]

theorem settled_of_ne (hd : Follows h s) (hm : Move s x e p) {t : Task}
    (ht : t ≠ x.task) :
    settled v (h ++ callEvents s x) ((apply s x.task e).goto x.task p) t = settled v h s t := by
  have hpc : ((apply s x.task e).goto x.task p).pc t = s.pc t := by simp [ht]
  rw [settled, settled, pendingCall_of_ne hm ht, hpc, count_shares_of_ne hd hm ht]

/-- Returning to user mode settles nothing new. -/
theorem settled_of_ret (hd : Follows h s) (hm : Move s x e p) {r : Int}
    (hr : s.pc x.task = .ret r) :
    settled v (h ++ callEvents s x) ((apply s x.task e).goto x.task p) x.task =
      settled v h s x.task := by
  have hpc : ((apply s x.task e).goto x.task p).pc x.task = p := by simp
  rw [settled, settled, hpc, hr]
  rcases callEvents_cases hm with ⟨c, k, _, huser, _⟩ | ⟨r', hev, hr', rfl⟩ | ⟨hev, rfl⟩ | ⟨_, hk, _⟩
  · rw [hr] at huser
    cases huser
  · rw [hr] at hr'
    cases hr'
    obtain ⟨a, j, hp, hcall⟩ := hd.ret hr
    rw [hev, operations_respond hp, count_shares_append, if_pos rfl, hcall]
    rfl
  · rw [hev, List.append_nil, hr]
  · rw [hr] at hk
    exact absurd rfl hk

/-- Any other step of the task settles a value when it comes to a return statement. -/
theorem settled_self (hm : Move s x e p) (hr : ∀ r, s.pc x.task ≠ .ret r) :
    settled v (h ++ callEvents s x) ((apply s x.task e).goto x.task p) x.task =
      settled v h s x.task + decidedValue v (pendingCall (h ++ callEvents s x) x.task) p := by
  have hpc : ((apply s x.task e).goto x.task p).pc x.task = p := by simp
  have hbefore : decidedValue v (pendingCall h x.task) (s.pc x.task) = 0 := by
    cases hq : s.pc x.task with
    | ret r => exact absurd hq (hr r)
    | _ => rfl
  have hops : operations (h ++ callEvents s x) = operations h := by
    rcases callEvents_cases hm with ⟨c, k, hev, _⟩ | ⟨r, _, hr', _⟩ | ⟨hev, _⟩ | ⟨hev, _⟩
    · rw [hev, operations_invoke]
    · exact absurd hr' (hr r)
    · rw [hev, List.append_nil]
    · rw [hev, List.append_nil]
  rw [settled, settled, hpc, hbefore, hops, Nat.add_zero]

/-- When no call is under way, all that is settled has been returned. -/
theorem settled_idle {t : Task} (hpc : s.pc t = .user) :
    settled v h s t = (shares (returnedValue v) (operations h)).count t := by
  rw [settled, hpc]
  rfl

end

/-- As long as task `t` has not returned from its call, the history says so. -/
theorem call_kept {h : CallHistory} {s s' : State} {t : Task} {xs : List Action} {a : Cred × Call}
    {f : Cred × Call → Int × UserMem → ℕ} (hrun : Run step AnyStep s xs s')
    (hcalls : ∀ c k, .call t c k ∉ xs) (hf : Follows h s) (ha : pendingCall h t = some a)
    (hend : s'.pc t ≠ .user) :
    pendingCall (h ++ observe step callEvents s xs) t = some a ∧
      (shares f (operations (h ++ observe step callEvents s xs))).count t =
        (shares f (operations h)).count t := by
  have hrun' := hrun.restrict (fun x => ∀ c k, x ≠ .call t c k) fun x hx c k hxe => hcalls c k (hxe ▸ hx)
  have hkeep := hrun'.observed callEvents
    (fun h' s => Follows h' s ∧ (s.pc t = .user ∨ (pendingCall h' t = some a ∧
      (shares f (operations h')).count t = (shares f (operations h)).count t)))
    ⟨hf, .inr ⟨ha, rfl⟩⟩ ?_
  · exact hkeep.2.resolve_left hend
  · intro h' s x s' hi hx hst
    obtain ⟨hfol, hcase⟩ := hi
    obtain ⟨e, p, hm, rfl⟩ := step_eq_some.mp hst
    refine ⟨hfol.move hm, ?_⟩
    by_cases ht : t = x.task
    · subst ht
      rw [goto_pc, Function.update_self]
      rcases callEvents_cases hm with ⟨c, k, _, _, _, hcall⟩ | ⟨r, _, _, rfl⟩ | ⟨hev, rfl⟩ |
        ⟨hev, hk, _⟩
      · exact absurd hcall (hx.2 c k)
      · exact .inl rfl
      · rw [hev, List.append_nil]
        exact hcase
      · rw [hev, List.append_nil]
        refine hcase.imp_left fun huser => ?_
        rw [huser] at hk
        exact absurd rfl hk
    · have hpc : ((apply s x.task e).goto x.task p).pc t = s.pc t := by simp [ht]
      rw [hpc, pendingCall_of_ne hm ht, count_shares_of_ne hfol hm ht]
      exact hcase

end DoEvent
