import DoEvent.Frame

/-!
# Pointers held by the calls and the list invariant

Every call drops the read lock before it acts through the pointer it looked up, so the
pointer lives on in the program counter. `Pc.hold` says which pointer a task holds and
what for. `ListInv` ties the pointers of openers and closers to the event list and to
the allocator; it survives every step as long as no close unlinks a record that another
close has looked up and not yet unlinked.
-/

namespace DoEvent

inductive Hold where
  | opening
  | opened
  | unlinking
  | freeing
  | waiting
  | signalling
  | changing
  deriving DecidableEq, Repr

def Pc.hold : Pc → Option (Hold × Addr)
  | .openWrite _ e => some (.opening, e)
  | .openRet e => some (.opened, e)
  | .closeActive e | .closeWrite e _ => some (.unlinking, e)
  | .closeKfree e _ => some (.freeing, e)
  | .waitReset e | .waitTest e | .waitPrepare e | .waitRetest e | .waitSignal e
  | .waitSchedule e | .waitAsleep e | .waitFinish e => some (.waiting, e)
  | .sigActive e | .sigWrite e | .sigWake e _ => some (.signalling, e)
  | .chownWrite _ e _ _ | .chmodWrite _ e _ _ => some (.changing, e)
  | _ => none

def State.holds (s : State) (t : Task) (k : Hold) (a : Addr) : Prop := (s.pc t).hold = some (k, a)

instance (s : State) (t : Task) (k : Hold) (a : Addr) : Decidable (s.holds t k a) :=
  inferInstanceAs (Decidable (_ = _))

theorem holds_of_pc {s : State} {t : Task} {p : Pc} {k : Hold} {a : Addr} (hpc : s.pc t = p)
    (hp : p.hold = some (k, a)) : s.holds t k a := by
  rw [State.holds, hpc]
  exact hp

theorem ne_user_of_holds {s : State} {t : Task} {k : Hold} {a : Addr} (h : s.holds t k a) :
    s.pc t ≠ .user := by
  intro hpc
  rw [State.holds, hpc] at h
  cases h

theorem entry_hold (c : Cred) (k : Call) : (entry c k).hold = none := by
  cases k <;> simp only [entry] <;> (try split) <;> rfl

/-- The steps in which the acting task obtains the pointer `a` or changes its purpose. -/
def Gains (s : State) (x : Action) (e : Effect) (a : Addr) : Hold → Prop
  | .opening => e = .kmalloc a
  | .opened => ∃ c, e = .openSection c a
  | .freeing => ∃ process, e = .closeSection a process
  | .unlinking => ∃ t c i, x = .run t ∧ s.pc t = .closeRead c i ∧
      readSection s.mem s.eventlist c i = some a
  | .waiting => ∃ t c i, x = .run t ∧ s.pc t = .waitRead c i ∧
      readSection s.mem s.eventlist c i = some a
  | .signalling => ∃ t c i, x = .run t ∧ s.pc t = .sigRead c i ∧
      readSection s.mem s.eventlist c i = some a
  | .changing => ∃ t c i UID GID UIDFlag GIDFlag junk, x = .run t ∧
      (s.pc t = .chownRead c i UID GID junk ∨ s.pc t = .chmodRead c i UIDFlag GIDFlag junk) ∧
      readSectionUser s.mem s.eventlist c i junk = some a

theorem Move.hold {s : State} {x : Action} {e : Effect} {p : Pc} {k : Hold} {a : Addr}
    (h : Move s x e p) (hp : p.hold = some (k, a)) : s.holds x.task k a ∨ Gains s x e a k := by
  cases h with
  | call t c call hpc => rw [entry_hold] at hp; cases hp
  | nomem t c hpc => cases hp
  | kmalloc t c b hpc hfree =>
    cases hp
    exact .inr rfl
  | posix t => exact .inl hp
  | deliver t hpc => exact .inl hp
  | run t e p hrq hnext =>
    have hf := Flow.of_next hnext
    simp only [State.holds, Action.task]
    generalize hpc : s.pc t = q at hf
    cases hf with
    | closeFound c i b hb | waitFound c i b hb | sigFound c i b hb =>
      cases hp
      exact .inr ⟨t, c, i, rfl, hpc, hb⟩
    | chownFound c i UID GID junk b hb =>
      cases hp
      exact .inr ⟨t, c, i, UID, GID, 0, 0, junk, rfl, .inl hpc, hb⟩
    | chmodFound c i UIDFlag GIDFlag junk b hb =>
      cases hp
      exact .inr ⟨t, c, i, 0, 0, UIDFlag, GIDFlag, junk, rfl, .inr hpc, hb⟩
    | openWrite c b =>
      cases hp
      exact .inr ⟨c, rfl⟩
    | closeWrite b process =>
      cases hp
      exact .inr ⟨process, rfl⟩
    | _ => first | exact .inl hp | cases hp

theorem holds_goto {s : State} {t : Task} {e : Effect} {p : Pc} {u : Task} {k : Hold} {a : Addr} :
    ((apply s t e).goto t p).holds u k a ↔
      (u = t ∧ p.hold = some (k, a)) ∨ (u ≠ t ∧ s.holds u k a) := by
  simp only [State.holds, goto_pc, apply_pc]
  by_cases hu : u = t
  · subst hu
    simp
  · simp [hu]

/-- Where a held pointer comes from: the task held it for the same purpose before the step,
or it has obtained it in this step. -/
theorem Move.holds {s : State} {x : Action} {e : Effect} {p : Pc} {u : Task} {k : Hold} {a : Addr}
    (hm : Move s x e p) (hu : ((apply s x.task e).goto x.task p).holds u k a) :
    s.holds u k a ∨ (u = x.task ∧ Gains s x e a k) := by
  rcases holds_goto.mp hu with ⟨rfl, hp⟩ | ⟨_, hu⟩
  · exact (hm.hold hp).imp_right fun hg => ⟨rfl, hg⟩
  · exact .inl hu

theorem Move.waitReset {s : State} {x : Action} {e : Effect} {p : Pc} {a : Addr}
    (hm : Move s x e p) (hp : p = .waitReset a) :
    s.pc x.task = .waitReset a ∨ Gains s x e a .waiting := by
  rcases hm.hold (by rw [hp]; rfl) with hold | hg
  · left
    cases hm with
    | call t c k hpc | deliver t hpc => rw [State.holds, Action.task, hpc] at hold; cases hold
    | nomem t c hpc | kmalloc t c b hpc hfree => cases hp
    | posix t => exact hp
    | run t e p hrq hnext =>
      have hf := Flow.of_next hnext
      rw [State.holds, Action.task] at hold
      generalize s.pc t = q at hf hold
      cases hf <;> cases hp
      cases hold
  · exact .inr hg

/-! ### The list invariant -/

/-- The task alone may touch the record: it is not listed yet, or no longer. -/
def State.owns (s : State) (t : Task) (a : Addr) : Prop := s.holds t .opening a ∨ s.holds t .freeing a

structure ListInv (s : State) : Prop where
  nodup : s.eventlist.Nodup
  used : ∀ a ∈ s.eventlist, s.inUse a = true
  sentinel : allevents ∉ s.eventlist
  sentinelUsed : s.inUse allevents = true
  owned : ∀ t a, s.owns t a → s.inUse a = true ∧ a ∉ s.eventlist ∧ a ≠ allevents
  ownedOnce : ∀ t u a, s.owns t a → s.owns u a → t = u
  unlinking : ∀ t a, s.holds t .unlinking a → a ∈ s.eventlist

/-- The write section of a close of the event at `b`. -/
def Unlinks (s : State) (x : Action) (b : Addr) : Prop :=
  ∃ t process, x = .run t ∧ s.pc t = .closeWrite b process

theorem Move.unlinks {s : State} {x : Action} {p : Pc} {a : Addr} {process : Bool}
    (hm : Move s x (.closeSection a process) p) : Unlinks s x a := by
  have ho := hm.origin
  cases hm with
  | run t e p hrq hnext => exact ⟨t, process, rfl, ho.1⟩

/-- The write section of an open that fills in the record at `a`. -/
def Creates (s : State) (x : Action) (a : Addr) : Prop := ∃ t c, x = .run t ∧ s.pc t = .openWrite c a

theorem Move.creates {s : State} {x : Action} {p : Pc} {c : Cred} {a : Addr}
    (hm : Move s x (.openSection c a) p) : Creates s x a := by
  have ho := hm.origin
  cases hm with
  | run t e p hrq hnext => exact ⟨t, c, rfl, ho.1⟩

/-- A close unlinks a record only when no other close is about to unlink it too. -/
def UnlinksAlone (s : State) (x : Action) : Prop :=
  ∀ a, Unlinks s x a → ∀ u, u ≠ x.task → ¬ s.holds u .unlinking a

def unlinksAloneTest (k : Task) (s : State) (x : Action) : Bool :=
  match s.pc x.task with
  | .closeWrite a _ => (List.range k).all fun u => u == x.task || !decide (s.holds u .unlinking a)
  | _ => true

theorem unlinksAlone_of_test {k : Task} {s : State} {x : Action} (hi : s.idleFrom k)
    (h : unlinksAloneTest k s x = true) : UnlinksAlone s x := by
  rintro a ⟨t, process, rfl, hpc⟩ u hu hold
  simp only [unlinksAloneTest, Action.task, hpc] at h
  rcases hi.test h u with hpcu | htest
  · exact ne_user_of_holds hold hpcu
  · have hne : u ≠ t := hu
    simp [hne, hold] at htest

theorem doeventInit_listInv (mem : Addr → Event) (user : Task → UserMem) :
    ListInv (doeventInit mem user) where
  nodup := List.nodup_nil
  used := fun a ha => absurd ha List.not_mem_nil
  sentinel := List.not_mem_nil
  sentinelUsed := rfl
  owned := fun t a h => by rcases h with h | h <;> cases h
  ownedOnce := fun t u a h => by rcases h with h | h <;> cases h
  unlinking := fun t a h => by cases h

theorem owns_goto {s : State} {t : Task} {e : Effect} {p : Pc} {u : Task} {a : Addr}
    (h : ((apply s t e).goto t p).owns u a) :
    (u = t ∧ (p.hold = some (.opening, a) ∨ p.hold = some (.freeing, a))) ∨
      (u ≠ t ∧ s.owns u a) := by
  rcases h with h | h <;> rcases holds_goto.mp h with ⟨hu, hp⟩ | ⟨hu, h⟩
  · exact .inl ⟨hu, .inl hp⟩
  · exact .inr ⟨hu, .inl h⟩
  · exact .inl ⟨hu, .inr hp⟩
  · exact .inr ⟨hu, .inr h⟩

section
variable {s : State} {x : Action} {e : Effect} {p : Pc}

/-- Nobody owns a record that its owner has given up. -/
theorem ListInv.given_up (hi : ListInv s) {t u : Task} {a b : Addr} (hbt : s.owns t b)
    (hp : ∀ k, k = .opening ∨ k = .freeing → p.hold ≠ some (k, a))
    (h : ((apply s t e).goto t p).owns u a) : s.owns u a ∧ a ≠ b := by
  rcases owns_goto h with ⟨_, hpa | hpa⟩ | ⟨hu, ho⟩
  · exact absurd hpa (hp _ (.inl rfl))
  · exact absurd hpa (hp _ (.inr rfl))
  · exact ⟨ho, fun hab => hu (hi.ownedOnce u t b (hab ▸ ho) hbt)⟩

/-- Steps that neither link, unlink, allocate nor free. -/
theorem ListInv.frame (hi : ListInv s) (hm : Move s x e p)
    (hlist : (apply s x.task e).eventlist = s.eventlist)
    (huse : (apply s x.task e).inUse = s.inUse) (ha : ∀ a, e ≠ .kmalloc a)
    (hc : ∀ a process, e ≠ .closeSection a process) :
    ListInv ((apply s x.task e).goto x.task p) := by
  have hown : ∀ u a, ((apply s x.task e).goto x.task p).owns u a → s.owns u a := by
    intro u a h
    rcases h with h | h
    · rcases hm.holds h with h | ⟨_, he⟩
      · exact .inl h
      · exact absurd he (ha a)
    · rcases hm.holds h with h | ⟨_, q, he⟩
      · exact .inr h
      · exact absurd he (hc a q)
  refine ⟨?_, ?_, ?_, ?_, ?_, ?_, ?_⟩
  · simpa [hlist] using hi.nodup
  · simpa [hlist, huse] using hi.used
  · simpa [hlist] using hi.sentinel
  · simpa [huse] using hi.sentinelUsed
  · intro t a h
    simpa [hlist, huse] using hi.owned t a (hown t a h)
  · exact fun t u a h h' => hi.ownedOnce t u a (hown t a h) (hown u a h')
  · intro u a h
    rw [goto_eventlist, hlist]
    rcases hm.holds h with h | ⟨_, t, c, i, _, _, hr⟩
    · exact hi.unlinking u a h
    · exact (readSection_some hr).1

theorem ListInv.kmalloc (hi : ListInv s) {t : Task} {c : Cred} {b : Addr}
    (hfree : s.inUse b = false) :
    ListInv ((apply s t (.kmalloc b)).goto t (.openWrite c b)) := by
  have hb : b ∉ s.eventlist := fun h => by simp [hi.used b h] at hfree
  have hbs : b ≠ allevents := fun h => by simp [h, hi.sentinelUsed] at hfree
  have hown : ∀ u a, ((apply s t (.kmalloc b)).goto t (.openWrite c b)).owns u a →
      (u = t ∧ a = b) ∨ (u ≠ t ∧ s.owns u a) := by
    intro u a h
    rcases owns_goto h with ⟨hu, hp | hp⟩ | h
    · cases hp
      exact .inl ⟨hu, rfl⟩
    · cases hp
    · exact .inr h
  have hne : ∀ u a, s.owns u a → a ≠ b := fun u a h he => by
    simp [he ▸ (hi.owned u a h).1] at hfree
  refine ⟨hi.nodup, ?_, hi.sentinel, ?_, ?_, ?_, ?_⟩
  · intro a ha
    have hab : a ≠ b := fun h => hb (h ▸ ha)
    simpa [apply_inUse, hab] using hi.used a ha
  · simpa [apply_inUse, Ne.symm hbs] using hi.sentinelUsed
  · intro u a h
    rcases hown u a h with ⟨_, rfl⟩ | ⟨_, h⟩
    · exact ⟨by simp [apply_inUse], hb, hbs⟩
    · simpa [apply_inUse, apply_eventlist, hne u a h] using hi.owned u a h
  · intro u v a hu hv
    rcases hown u a hu with ⟨hut, hab⟩ | ⟨_, ho⟩ <;> rcases hown v a hv with ⟨hvt, hab'⟩ | ⟨_, ho'⟩
    · exact hut.trans hvt.symm
    · exact absurd hab (hne v a ho')
    · exact absurd hab' (hne u a ho)
    · exact hi.ownedOnce u v a ho ho'
  · intro u a h
    rcases holds_goto.mp h with ⟨_, hp⟩ | ⟨_, h⟩
    · cases hp
    · exact hi.unlinking u a h

theorem ListInv.kfree (hi : ListInv s) {t : Task} {b : Addr} {n : ℕ} {r : Int}
    (hpc : s.pc t = .closeKfree b n) :
    ListInv ((apply s t (.kfree b)).goto t (.ret r)) := by
  have hbt : s.owns t b := .inr (holds_of_pc hpc rfl)
  obtain ⟨hbu, hbl, hbs⟩ := hi.owned t b hbt
  have hown : ∀ u a, ((apply s t (.kfree b)).goto t (.ret r)).owns u a → s.owns u a ∧ a ≠ b :=
    fun u a => hi.given_up hbt (by simp [Pc.hold])
  refine ⟨hi.nodup, ?_, hi.sentinel, ?_, ?_, ?_, ?_⟩
  · intro a ha
    have hab : a ≠ b := fun h => hbl (h ▸ ha)
    simpa [apply_inUse, hab] using hi.used a ha
  · simpa [apply_inUse, Ne.symm hbs] using hi.sentinelUsed
  · intro u a h
    simpa [apply_inUse, apply_eventlist, (hown u a h).2] using hi.owned u a (hown u a h).1
  · exact fun u v a hu hv => hi.ownedOnce u v a (hown u a hu).1 (hown v a hv).1
  · intro u a h
    rcases holds_goto.mp h with ⟨_, hp⟩ | ⟨_, h⟩
    · cases hp
    · exact hi.unlinking u a h

theorem ListInv.openSection (hi : ListInv s) {t : Task} {c : Cred} {b : Addr}
    (hpc : s.pc t = .openWrite c b) :
    ListInv ((apply s t (.openSection c b)).goto t (.openRet b)) := by
  have hbt : s.owns t b := .inl (holds_of_pc hpc rfl)
  obtain ⟨hbu, hbl, hbs⟩ := hi.owned t b hbt
  have hlist : ((apply s t (.openSection c b)).goto t (.openRet b)).eventlist = s.eventlist ++ [b] := by
    simp [apply_eventlist]
  have huse : ((apply s t (.openSection c b)).goto t (.openRet b)).inUse = s.inUse := by
    simp [apply_inUse]
  have hown : ∀ u a, ((apply s t (.openSection c b)).goto t (.openRet b)).owns u a →
      s.owns u a ∧ a ≠ b := fun u a => hi.given_up hbt (by simp [Pc.hold])
  refine ⟨?_, ?_, ?_, by rw [huse]; exact hi.sentinelUsed, ?_, ?_, ?_⟩
  · rw [hlist, List.nodup_append]
    refine ⟨hi.nodup, List.nodup_singleton b, ?_⟩
    intro a ha a' ha' hab
    rw [List.mem_singleton] at ha'
    exact hbl (ha' ▸ hab ▸ ha)
  · intro a ha
    rw [hlist, List.mem_append, List.mem_singleton] at ha
    rw [huse]
    rcases ha with ha | rfl
    · exact hi.used a ha
    · exact hbu
  · rw [hlist, List.mem_append, List.mem_singleton]
    rintro (h | h)
    · exact hi.sentinel h
    · exact hbs h.symm
  · intro u a h
    obtain ⟨ho, hab⟩ := hown u a h
    obtain ⟨h1, h2, h3⟩ := hi.owned u a ho
    exact ⟨by rw [huse]; exact h1, by rw [hlist]; simp [h2, hab], h3⟩
  · exact fun u v a hu hv => hi.ownedOnce u v a (hown u a hu).1 (hown v a hv).1
  · intro u a h
    rw [hlist, List.mem_append]
    rcases holds_goto.mp h with ⟨_, hp⟩ | ⟨_, h⟩
    · cases hp
    · exact .inl (hi.unlinking u a h)

theorem ListInv.closeSection (hi : ListInv s) {t : Task} {b : Addr} {process : Bool} {n : ℕ}
    (hpc : s.pc t = .closeWrite b process) (halone : ∀ u, u ≠ t → ¬ s.holds u .unlinking b) :
    ListInv ((apply s t (.closeSection b process)).goto t (.closeKfree b n)) := by
  have hbl : b ∈ s.eventlist := hi.unlinking t b (holds_of_pc hpc rfl)
  have hbs : b ≠ allevents := fun h => hi.sentinel (h ▸ hbl)
  have hnot : b ∉ s.eventlist.erase b := fun h => (List.Nodup.mem_erase_iff hi.nodup).mp h |>.1 rfl
  have hlist : ((apply s t (.closeSection b process)).goto t (.closeKfree b n)).eventlist =
      s.eventlist.erase b := by simp [apply_eventlist]
  have huse : ((apply s t (.closeSection b process)).goto t (.closeKfree b n)).inUse = s.inUse := by
    simp [apply_inUse]
  have hown : ∀ u a, ((apply s t (.closeSection b process)).goto t (.closeKfree b n)).owns u a →
      (u = t ∧ a = b) ∨ s.owns u a := by
    intro u a h
    rcases owns_goto h with ⟨hu, hp | hp⟩ | ⟨_, h⟩
    · cases hp
    · cases hp
      exact .inl ⟨hu, rfl⟩
    · exact .inr h
  have hne : ∀ u a, s.owns u a → a ≠ b := fun u a h he => (hi.owned u a h).2.1 (he ▸ hbl)
  refine ⟨?_, ?_, ?_, by rw [huse]; exact hi.sentinelUsed, ?_, ?_, ?_⟩
  · rw [hlist]
    exact hi.nodup.erase b
  · intro a ha
    rw [hlist] at ha
    rw [huse]
    exact hi.used a (List.mem_of_mem_erase ha)
  · rw [hlist]
    exact fun h => hi.sentinel (List.mem_of_mem_erase h)
  · intro u a h
    rw [hlist, huse]
    rcases hown u a h with ⟨_, rfl⟩ | ho
    · exact ⟨hi.used _ hbl, hnot, hbs⟩
    · obtain ⟨h1, h2, h3⟩ := hi.owned u a ho
      exact ⟨h1, fun hm => h2 (List.mem_of_mem_erase hm), h3⟩
  · intro u v a hu hv
    rcases hown u a hu with ⟨hut, hab⟩ | ho <;> rcases hown v a hv with ⟨hvt, hab'⟩ | ho'
    · exact hut.trans hvt.symm
    · exact absurd hab (hne v a ho')
    · exact absurd hab' (hne u a ho)
    · exact hi.ownedOnce u v a ho ho'
  · intro u a h
    rw [hlist]
    rcases holds_goto.mp h with ⟨_, hp⟩ | ⟨hu, h⟩
    · cases hp
    · -- Without `halone` another close would go on to unlink the record once more.
      have hab : a ≠ b := fun he => halone u hu (he ▸ h)
      exact (List.mem_erase_of_ne hab).mpr (hi.unlinking u a h)

end

theorem ListInv.step {s s' : State} {x : Action} (hi : ListInv s) (halone : UnlinksAlone s x)
    (h : step s x = some s') : ListInv s' := by
  obtain ⟨e, p, hm, rfl⟩ := step_eq_some.mp h
  have ho := hm.origin
  cases e with
  | kmalloc b =>
    obtain ⟨c, _, hfree, rfl⟩ := ho
    exact hi.kmalloc hfree
  | kfree b =>
    obtain ⟨n, hpc, rfl⟩ := ho
    exact hi.kfree hpc
  | openSection c b =>
    obtain ⟨hpc, rfl⟩ := ho
    exact hi.openSection hpc
  | closeSection b process =>
    obtain ⟨hpc, rfl⟩ := ho
    exact hi.closeSection hpc (halone b hm.unlinks)
  | _ =>
    exact hi.frame hm (by rw [apply_eventlist]) (by rw [apply_inUse]) (by simp) (by simp)

end DoEvent
