import DoEvent.Pointers

/-!
# The event that was checked is the event that is used

After its lookup a call acts through a saved pointer, in a later section or with no lock at
all: the write sections of chown and chmod, the queue test, the store and the wake-up of
sig, and the read of the id with which open returns. In between a close may unlink and free
the record and an open may get its address. The pointers stay good exactly as long as every
close finds the record unused when it unlinks it, and chown and chmod do not take an
uninitialised cursor for the result of a search through an empty list.
-/

namespace DoEvent

open Transition

/-- The record that the next step of a call uses, after its lookup or creation. -/
def Pc.uses : Pc → Option Addr
  | .openRet e | .sigActive e | .sigWrite e | .sigWake e _ | .chownWrite _ e _ _
  | .chmodWrite _ e _ _ => some e
  | _ => none

/-- Along `ys` from `m` the event at `a` is in the list all the time, and no other open
fills in its record. -/
def StaysLive (m : State) (ys : List Action) (a : Addr) : Prop :=
  (∀ ys₁ ys₂ n, ys = ys₁ ++ ys₂ → Run step AnyStep m ys₁ n → a ∈ n.eventlist) ∧
  ∀ ys₁ y ys₂ n, ys = ys₁ ++ y :: ys₂ → Run step AnyStep m ys₁ n → ¬ Creates n y a

/-- In this step task `t` gets the pointer `a`, from its lookup or by creating the event. -/
def Obtains (s : State) (x : Action) (m : State) (t : Task) (a : Addr) : Prop :=
  step s x = some m ∧ (s.pc t).uses = none ∧ (m.pc t).uses = some a

/-- When a close unlinks an event, no other task except waiters is between its lookup or
creation of it and its last use. -/
def UnlinksUnused (s : State) (x : Action) : Prop :=
  ∀ a, Unlinks s x a → ∀ u k, u ≠ x.task → s.holds u k a → k = .waiting

/-- The searches of chown and chmod find a list that is not empty, or a NULL cursor. -/
def SearchesListed (s : State) (x : Action) : Prop :=
  ∀ t c i U G uidFlag gidFlag junk, x = .run t →
    (s.pc t = .chownRead c i U G junk ∨ s.pc t = .chmodRead c i uidFlag gidFlag junk) →
    s.eventlist ≠ [] ∨ junk = none

def UsesApart (s : State) (x : Action) : Prop := UnlinksUnused s x ∧ SearchesListed s x

theorem UnlinksUnused.alone {s : State} {x : Action} (h : UnlinksUnused s x) : UnlinksAlone s x := by
  intro a ha u hu hold
  cases h a ha u _ hu hold

/-! ### Pointers in use are listed -/

/-- A pointer that its holder still uses, other than to close or to wait. -/
def Hold.inUse : Hold → Bool
  | .opened | .signalling | .changing => true
  | _ => false

theorem hold_of_uses {p : Pc} {a : Addr} (h : p.uses = some a) :
    ∃ k, p.hold = some (k, a) ∧ k.inUse = true := by
  cases p <;> cases h <;> exact ⟨_, rfl, rfl⟩

structure UseInv (s : State) : Prop where
  list : ListInv s
  used : ∀ t k a, s.holds t k a → k.inUse = true → a ∈ s.eventlist

theorem doeventInit_useInv (mem : Addr → Event) (user : Task → UserMem) :
    UseInv (doeventInit mem user) where
  list := doeventInit_listInv mem user
  used := fun _ _ _ h => by cases h

theorem UseInv.obtained {s : State} {x : Action} {e : Effect} {k : Hold} {a : Addr}
    (hx : SearchesListed s x) (hg : Gains s x e a k) (hk : k.inUse = true) :
    a ∈ s.eventlist ∨ ∃ c, e = .openSection c a := by
  cases k with
  | opened => exact .inr hg
  | signalling =>
    obtain ⟨t, c, i, _, _, hr⟩ := hg
    exact .inl (readSection_some hr).1
  | changing =>
    left
    obtain ⟨t, c, i, U, G, uf, gf, junk, rfl, hpc, hr⟩ := hg
    by_cases hl : s.eventlist = []
    · rcases hx t c i U G uf gf junk rfl hpc with hne | rfl
      · exact absurd hl hne
      · rw [hl] at hr
        cases hr
    · exact (readSectionUser_some hl hr).1
  | _ => cases hk

theorem UseInv.step {s s' : State} {x : Action} (hi : UseInv s) (hx : UsesApart s x)
    (h : step s x = some s') : UseInv s' := by
  have hlist := hi.list.step hx.1.alone h
  obtain ⟨e, p, hm, rfl⟩ := step_eq_some.mp h
  refine ⟨hlist, ?_⟩
  intro u k a hu hk
  have hold : a ∈ s.eventlist ∨ ∃ c, e = .openSection c a := by
    rcases hm.holds hu with hu | ⟨_, hg⟩
    · exact .inl (hi.used u k a hu hk)
    · exact UseInv.obtained hx.2 hg hk
  rw [goto_eventlist, apply_eventlist]
  have ho := hm.origin
  cases e with
  | openSection c b =>
    rcases hold with hal | ⟨c', he⟩
    · exact List.mem_append_left _ hal
    · cases he
      exact List.mem_append_right _ (List.mem_singleton_self a)
  | closeSection b process =>
    rcases hold with hal | ⟨_, he⟩
    · have hab : a ≠ b := by
        rintro rfl
        rcases holds_goto.mp hu with ⟨_, hp⟩ | ⟨hne, hu⟩
        · rw [ho.2] at hp
          cases hp
          cases hk
        · cases hx.1 a hm.unlinks u k hne hu
          cases hk
      exact (List.mem_erase_of_ne hab).mpr hal
    · cases he
  | _ =>
    rcases hold with hal | ⟨_, he⟩
    · exact hal
    · cases he

theorem useInv_run {s s' : State} {xs : List Action} (h : Run step UsesApart s xs s')
    (hi : UseInv s) : UseInv s' :=
  h.invariant UseInv hi fun _ _ _ hi hx hstep => hi.step hx hstep

/-! ### One pointer per call -/

/-- The task is outside a call, or its call has come to its return. -/
def Pc.over : Pc → Bool
  | .user | .ret _ => true
  | _ => false

theorem step_over {s s' : State} {x : Action} {t : Task} (hx : ∀ c k, x ≠ .call t c k)
    (h : step s x = some s') (ho : (s.pc t).over = true) : (s'.pc t).over = true := by
  by_cases ht : t = x.task
  · subst ht
    obtain ⟨e, p, hm, rfl⟩ := step_eq_some.mp h
    rw [goto_pc, Function.update_self]
    cases hm with
    | call t c k hpc => exact absurd rfl (hx c k)
    | nomem t c hpc => rfl
    | kmalloc t c a hpc hfree => rw [Action.task, hpc] at ho; cases ho
    | posix t | deliver t hpc => exact ho
    | run t e p hrq hnext =>
      have hf := Flow.of_next hnext
      simp only [Action.task] at ho
      generalize s.pc t = q at hf ho
      cases hf <;> first | rfl | cases ho
  · rw [step_pc_of_ne h ht]
    exact ho

theorem step_uses {s s' : State} {x : Action} {t : Task} {a : Addr} (h : step s x = some s')
    (hu : (s.pc t).uses = some a) : (s'.pc t).uses = some a ∨ (s'.pc t).over = true := by
  have huser : s.pc t ≠ .user := fun hpc => by rw [hpc] at hu; cases hu
  have halloc : ∀ c, s.pc t ≠ .openAlloc c := fun c hpc => by rw [hpc] at hu; cases hu
  rcases step_pc_cases h huser halloc with hpc | ⟨_, e, hf⟩
  · rw [hpc]
    exact .inl hu
  · generalize s.pc t = q at hf hu
    generalize s'.pc t = p at hf
    cases hf <;> first | exact .inl hu | exact .inr rfl | cases hu

theorem run_over {ok : State → Action → Prop} {s s' : State} {t : Task} {xs : List Action}
    (h : Run step ok s xs s') (hcall : ∀ c k, .call t c k ∉ xs) (ho : (s.pc t).over = true) :
    (s'.pc t).over = true := by
  have hr := h.restrict (fun x => ∀ c k, x ≠ .call t c k) fun x hx c k he => hcall c k (he ▸ hx)
  exact hr.invariant (fun s => (s.pc t).over = true) ho fun _ _ _ hi hok hstep =>
    step_over hok.2 hstep hi

theorem not_over_of_uses {p : Pc} {a : Addr} (h : p.uses = some a) : p.over = false := by
  cases p <;> first | rfl | cases h

theorem run_uses {ok : State → Action → Prop} {s n s' : State} {t : Task} {xs ys : List Action}
    {a a' : Addr} (h : Run step ok s xs n) (h' : Run step ok n ys s')
    (hcall : ∀ c k, .call t c k ∉ xs ++ ys) (hu : (s.pc t).uses = some a)
    (hu' : (s'.pc t).uses = some a') : (n.pc t).uses = some a := by
  induction h with
  | nil s => exact hu
  | cons hok hstep hrest ih =>
    have hcall' := fun c k hm => hcall c k (List.mem_cons_of_mem _ hm)
    rcases step_uses hstep hu with hu | hover
    · exact ih h' hcall' hu
    · have hend := run_over (hrest.append h') hcall' hover
      rw [not_over_of_uses hu'] at hend
      cases hend

/-- The record that chown, chmod, sig or open uses is the live event that the call has
looked up or created. -/
theorem checked_event_is_used (mem : Addr → Event) (user : Task → UserMem) (xs : List Action)
    (s : State) (hrun : Run step UsesApart (doeventInit mem user) xs s) (x : Action) (m : State)
    (t : Task) (a : Addr) (hx : UsesApart s x) (hget : Obtains s x m t a) (ys : List Action)
    (s' : State) (hrest : Run step UsesApart m ys s') (hcall : ∀ c k, .call t c k ∉ ys) (a' : Addr)
    (huse : (s'.pc t).uses = some a') : a' = a ∧ StaysLive m ys a := by
  obtain ⟨hstep, _, hafter⟩ := hget
  have hm := (useInv_run hrun (doeventInit_useInv mem user)).step hx hstep
  have hat : ∀ ys₁ ys₂ n, ys = ys₁ ++ ys₂ → Run step AnyStep m ys₁ n →
      UseInv n ∧ a ∈ n.eventlist := by
    intro ys₁ ys₂ n hys hn
    subst hys
    obtain ⟨n', hn', hrest'⟩ := hrest.split
    cases hn.functional hn'
    have hi := useInv_run hn' hm
    obtain ⟨k, hk, hin⟩ := hold_of_uses (run_uses hn' hrest' hcall hafter huse)
    exact ⟨hi, hi.used t k a hk hin⟩
  refine ⟨?_, fun ys₁ ys₂ n hys hn => (hat ys₁ ys₂ n hys hn).2, ?_⟩
  · have hend := run_uses hrest (.nil s') (by simpa using hcall) hafter huse
    rw [hend] at huse
    exact (Option.some.inj huse).symm
  · intro ys₁ y ys₂ n hys hn hcreates
    obtain ⟨u, c, _, hpc⟩ := hcreates
    obtain ⟨hi, ha⟩ := hat ys₁ (y :: ys₂) n hys hn
    exact (hi.list.owned u a (.inl (holds_of_pc hpc rfl))).2.1 ha

def usesApartTest (k : Task) (s : State) (x : Action) : Bool :=
  match s.pc x.task with
  | .closeWrite a _ => (List.range k).all fun u =>
      u == x.task || (s.pc u).hold.all fun h => decide (h.2 = a → h.1 = .waiting)
  | .chownRead _ _ _ _ junk | .chmodRead _ _ _ _ junk => !s.eventlist.isEmpty || junk.isNone
  | _ => true

theorem usesApart_of_test {k : Task} {s : State} {x : Action} (hi : s.idleFrom k)
    (h : usesApartTest k s x = true) : UsesApart s x := by
  constructor
  · rintro a ⟨t, process, rfl, hpc⟩ u l hu hold
    simp only [usesApartTest, Action.task, hpc] at h
    rcases hi.test h u with hpcu | htest
    · exact absurd hpcu (ne_user_of_holds hold)
    · have hne : u ≠ t := hu
      rw [State.holds] at hold
      simpa [hne, hold] using htest
  · rintro t c i U G uf gf junk rfl hpc
    rcases hpc with hpc | hpc <;> simpa [usesApartTest, Action.task, hpc] using h

/-- Task 1 is about to look up event 0, which it gives to user 9. -/
def chownLookup : List Action :=
  opens 0 rootCred 1 ++ opens 0 rootCred 2 ++ [.call 1 rootCred (.doeventchown 0 9 9 none)]

def closes (i : Int32) : List Action := [.call 0 rootCred (.doeventclose i)] ++ runs 0 4

theorem checked_event_is_used_chown :
    ∃ s m s', Run step UsesApart boot chownLookup s ∧ Obtains s (.run 1) m 1 1 ∧
      Run step UsesApart m (closes 1) s' ∧ (s'.pc 1).uses = some 1 ∧ StaysLive m (closes 1) 1 := by
  obtain ⟨s, hs, _, ht⟩ := run_of_idle_test UsesApart chownLookup 2 (usesApartTest 2)
    (fun s => decide ((s.pc 1).uses = none) &&
      (step s (.run 1)).any fun m : State => decide ((m.pc 1).uses = some 1))
    (by decide) (boot_idleFrom 2) fun s x => usesApart_of_test
  obtain ⟨s', hs', _, huse⟩ := run_of_idle_test UsesApart (chownLookup ++ .run 1 :: closes 1) 2
    (usesApartTest 2) (fun s => decide ((s.pc 1).uses = some 1))
    (by decide) (boot_idleFrom 2) fun s x => usesApart_of_test
  simp only [Bool.and_eq_true, Option.any_eq_true, decide_eq_true_eq] at ht huse
  obtain ⟨hbefore, m, hstep, hafter⟩ := ht
  have hget : Obtains s (.run 1) m 1 1 := ⟨hstep, hbefore, hafter⟩
  obtain ⟨s₁, hs₁, htail⟩ := hs'.split
  cases hs.functional hs₁
  cases htail with
  | cons hx hstep' hrest =>
    rw [hstep] at hstep'
    cases hstep'
    have hlive := checked_event_is_used bootMem bootUser chownLookup s hs (.run 1) m 1 1 hx hget
      (closes 1) s' hrest (by simp [closes, runs]) 1 huse
    exact ⟨s, m, s', hs, hget, hrest, huse, hlive.2⟩

/-! ### A chown of somebody else's event -/

/-- The address of a closed event goes to an open of user 7. -/
def reopens : List Action := [.call 2 ⟨7, 7⟩ .doeventopen, .kmalloc 2 (some 1), .run 2]

/-- Task 0 closes the event that task 1 has looked up, and the chown of task 1 is about to
write into the event of user 7 at the same address. -/
theorem chown_reaches_reused_record :
    ∃ s m n s', Run step AnyStep boot chownLookup s ∧ Obtains s (.run 1) m 1 1 ∧
      Run step AnyStep m (closes 0) n ∧ 1 ∉ n.eventlist ∧ Run step AnyStep n reopens s' ∧
      (s'.pc 1).uses = some 1 ∧ 1 ∈ s'.eventlist ∧ (s'.mem 1).uid = 7 := by
  have hrun : ∃ s, Run step AnyStep boot chownLookup s ∧
      (decide ((s.pc 1).uses = none) && (step s (.run 1)).any fun m : State =>
        decide ((m.pc 1).uses = some 1) &&
        (steps step (fun _ _ => true) m (closes 0)).any fun n : State => decide (1 ∉ n.eventlist) &&
          (steps step (fun _ _ => true) n reopens).any fun s' : State =>
            decide ((s'.pc 1).uses = some 1 ∧ 1 ∈ s'.eventlist ∧ (s'.mem 1).uid = 7)) = true :=
    Run.of_test (fun _ _ => true) _ (by decide) fun _ _ _ => trivial
  simp only [Bool.and_eq_true, Option.any_eq_true, decide_eq_true_eq] at hrun
  obtain ⟨s, hs, hbefore, m, hstep, hafter, n, hn, hgone, s', hs', huse⟩ := hrun
  exact ⟨s, m, n, s', hs, ⟨hstep, hbefore, hafter⟩, .of_steps _ hn fun _ _ _ => trivial, hgone,
    .of_steps _ hs' fun _ _ _ => trivial, huse⟩

theorem used_event_is_another :
    ¬ ∀ mem user xs s x m t a ys s' a', Run step AnyStep (doeventInit mem user) xs s →
      Obtains s x m t a → Run step AnyStep m ys s' → (∀ c k, .call t c k ∉ ys) →
      (s'.pc t).uses = some a' → a' = a ∧ StaysLive m ys a := by
  intro hclaim
  obtain ⟨s, m, n, s', hs, hget, hn, hgone, hs', huse, _⟩ := chown_reaches_reused_record
  obtain ⟨_, hlive, _⟩ := hclaim bootMem bootUser chownLookup s (.run 1) m 1 1 (closes 0 ++ reopens)
    s' 1 hs hget (hn.append hs') (by simp [closes, reopens, runs]) huse
  exact hgone (hlive (closes 0) reopens n rfl hn)

end DoEvent
