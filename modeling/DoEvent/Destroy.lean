import DoEvent.Effects

/-!
# Closes of one event

Authorised tasks close the same live event while others open new ones. Lookup and removal
are separate sections with no check in between, so two closes that both find the event both
unlink it and both free it. As long as no close unlinks a record that another one has found
and not yet unlinked, the event is destroyed once, and every other close returns -1 or finds
a later event to which the same id has been issued.
-/

namespace DoEvent

open Transition

/-- What opens and closes do to the records: an open fills one in, a close unlinks it, passes
it to `kfree`, and comes to its return, with the record it has found. -/
inductive CloseMark where
  | opened (a : Addr)
  | unlinked (t : Task) (a : Addr)
  | freed (t : Task) (a : Addr)
  | closed (t : Task) (found : Option Addr) (r : Int)
  deriving DecidableEq, Repr

def closeMarks (s : State) : Action → List CloseMark
  | .call t _ (.doeventclose eventID) => if isValidEventId eventID then [.closed t none (-1)] else []
  | .run t =>
    match s.pc t with
    | .openWrite _ a => [.opened a]
    | .closeRead c eventID =>
      if (readSection s.mem s.eventlist c eventID).isNone then [.closed t none (-1)] else []
    | .closeWrite a _ => [.unlinked t a]
    | .closeKfree a process => [.freed t a, .closed t (some a) process]
    | _ => []
  | _ => []

/-- Closes that find no event and return -1. -/
def Misses (l : List CloseMark) : Prop := ∀ o ∈ l, ∃ t, o = .closed t none (-1)

def CloseMark.missed : CloseMark → Bool
  | .closed _ none _ => true
  | _ => false

/-- The close has found the record at `a`, or nothing. -/
def CloseMark.concerns (a : Addr) : CloseMark → Bool
  | .opened _ => false
  | .unlinked _ b | .freed _ b | .closed _ (some b) _ => b == a
  | .closed _ none _ => true

/-- The marks of the closes that find the event whose record is at `a`, or nothing. When an
open fills the record in again, those who find it there find another event. -/
def marksOf (a : Addr) : List CloseMark → List CloseMark
  | [] => []
  | o :: l =>
    if o = .opened a then l.filter CloseMark.missed
    else if o.concerns a then o :: marksOf a l
    else marksOf a l

/-- One close unlinks the record, frees it and returns a count; all the others return -1. -/
def DestroyedOnce (a : Addr) (l : List CloseMark) : Prop :=
  ∃ t r l₁ l₂, l = .unlinked t a :: (l₁ ++ .freed t a :: .closed t (some a) r :: l₂) ∧ 0 ≤ r ∧
    Misses l₁ ∧ Misses l₂

/-- The calls are opens, and closes of the event `v` by tasks permitted to close it. -/
def ClosesOf (v : Event) (_ : State) (x : Action) : Prop :=
  ∀ t c k, x = .call t c k → k = .doeventopen ∨
    (k = .doeventclose v.id ∧ validateEvent c true (some v) = true)

/-- The steps of a run in which no two closes of one record overlap. -/
def InTurn (v : Event) (s : State) (x : Action) : Prop := ClosesOf v s x ∧ UnlinksAlone s x

/-! ### Logs -/

section
variable {a : Addr} {l l' : List CloseMark}

theorem misses_nil : Misses [] := fun _ ho => absurd ho List.not_mem_nil

theorem misses_one (t : Task) : Misses [.closed t none (-1)] :=
  fun _ ho => ⟨t, List.mem_singleton.mp ho⟩

theorem Misses.append (h : Misses l) (h' : Misses l') : Misses (l ++ l') := by
  intro o ho
  rcases List.mem_append.mp ho with ho | ho
  · exact h o ho
  · exact h' o ho

theorem DestroyedOnce.append (h : DestroyedOnce a l) (h' : Misses l') : DestroyedOnce a (l ++ l') := by
  obtain ⟨t, r, l₁, l₂, rfl, hr, hl₁, hl₂⟩ := h
  exact ⟨t, r, l₁, l₂ ++ l', by simp, hr, hl₁, hl₂.append h'⟩

theorem DestroyedOnce.ne_nil (h : DestroyedOnce a l) : l ≠ [] := by
  obtain ⟨t, r, l₁, l₂, rfl, _⟩ := h
  exact List.cons_ne_nil _ _

theorem marksOf_append (h : .opened a ∉ l) : marksOf a (l ++ l') = marksOf a l ++ marksOf a l' := by
  induction l with
  | nil => rfl
  | cons o l ih =>
    obtain ⟨ho, hl⟩ := not_or.mp (mt List.mem_cons.mpr h)
    rw [List.cons_append, marksOf, marksOf, if_neg (Ne.symm ho), if_neg (Ne.symm ho), ih hl]
    split <;> rfl

theorem marksOf_append_opened (h : .opened a ∈ l) :
    marksOf a (l ++ l') = marksOf a l ++ l'.filter CloseMark.missed := by
  induction l with
  | nil => cases h
  | cons o l ih =>
    rw [List.cons_append, marksOf, marksOf]
    by_cases ho : o = .opened a
    · rw [if_pos ho, if_pos ho, List.filter_append]
    · have hl : .opened a ∈ l := (List.mem_cons.mp h).resolve_left (Ne.symm ho)
      rw [if_neg ho, if_neg ho, ih hl]
      split <;> rfl

theorem marksOf_eq_nil (h : marksOf a (l ++ l') = []) : marksOf a l = [] := by
  by_cases hopen : .opened a ∈ l
  · rw [marksOf_append_opened hopen] at h
    exact (List.append_eq_nil_iff.mp h).1
  · rw [marksOf_append hopen] at h
    exact (List.append_eq_nil_iff.mp h).1

end

/-! ### Steps of the closes -/

section
variable {s : State} {x : Action} {f : Effect} {p : Pc}

theorem closeMarks_cases (hm : Move s x f p) :
    (closeMarks s x = [] ∧ (∀ c a, f ≠ .openSection c a) ∧ (∀ a q, f ≠ .closeSection a q) ∧
      ∀ a, f ≠ .kfree a) ∨
    (∃ t c a, closeMarks s x = [.opened a] ∧ x = .run t ∧ f = .openSection c a ∧
      s.pc t = .openWrite c a) ∨
    (∃ t, closeMarks s x = [.closed t none (-1)] ∧ f = .skip ∧
      ((∃ c i, x = .run t ∧ s.pc t = .closeRead c i ∧ readSection s.mem s.eventlist c i = none) ∨
        ∃ c i, x = .call t c (.doeventclose i) ∧ isValidEventId i = true)) ∨
    (∃ t a q, closeMarks s x = [.unlinked t a] ∧ x = .run t ∧ f = .closeSection a q ∧
      s.pc t = .closeWrite a q) ∨
    (∃ t a, ∃ n : ℕ, closeMarks s x = [.freed t a, .closed t (some a) n] ∧ x = .run t ∧
      f = .kfree a ∧ s.pc t = .closeKfree a n) := by
  cases hm with
  | call t c k hpc =>
    cases k with
    | doeventclose i =>
      by_cases hv : isValidEventId i = true
      · exact .inr (.inr (.inl ⟨t, by simp [closeMarks, hv], rfl, .inr ⟨c, i, rfl, hv⟩⟩))
      · exact .inl ⟨by simp [closeMarks, hv], by simp, by simp, by simp⟩
    | _ => exact .inl ⟨rfl, by simp, by simp, by simp⟩
  | nomem t c hpc => exact .inl ⟨rfl, by simp, by simp, by simp⟩
  | kmalloc t c a hpc hfree => exact .inl ⟨rfl, by simp, by simp, by simp⟩
  | posix t => exact .inl ⟨rfl, by simp, by simp, by simp⟩
  | deliver t hpc => exact .inl ⟨rfl, by simp, by simp, by simp⟩
  | run t f p hrq hnext =>
    have hf := Flow.of_next hnext
    simp only [closeMarks]
    generalize hpc : s.pc t = q at hf
    cases hf with
    | openWrite c a => exact .inr (.inl ⟨t, c, a, rfl, rfl, rfl, hpc⟩)
    | closeMiss c i hr =>
      exact .inr (.inr (.inl ⟨t, by simp [hr], rfl, .inl ⟨c, i, rfl, hpc, hr⟩⟩))
    | closeFound c i a hr => exact .inl ⟨by simp [hr], by simp, by simp, by simp⟩
    | closeWrite a q => exact .inr (.inr (.inr (.inl ⟨t, a, q, rfl, rfl, rfl, hpc⟩)))
    | closeKfree a n => exact .inr (.inr (.inr (.inr ⟨t, a, n, rfl, rfl, rfl, hpc⟩)))
    | _ => exact .inl ⟨rfl, by simp, by simp, by simp⟩

theorem Move.marks_kfree {a : Addr} {n : ℕ} (hm : Move s x (.kfree a) p)
    (hpc : s.pc x.task = .closeKfree a n) :
    closeMarks s x = [.freed x.task a, .closed x.task (some a) n] := by
  cases hm with
  | run t f p hrq hnext =>
    rw [Action.task] at hpc
    simp only [closeMarks, hpc, Action.task]

theorem Move.marks_openSection {a : Addr} {c : Cred} (hm : Move s x (.openSection c a) p) :
    closeMarks s x = [.opened a] := by
  have hpc := hm.origin.1
  cases hm with
  | run t f p hrq hnext =>
    rw [Action.task] at hpc
    simp only [closeMarks, hpc]

theorem misses_filter_missed (hm : Move s x f p) :
    Misses ((closeMarks s x).filter CloseMark.missed) := by
  rcases closeMarks_cases hm with ⟨h, _⟩ | ⟨t, c, a, h, _⟩ | ⟨t, h, _⟩ | ⟨t, a, q, h, _⟩ |
    ⟨t, a, n, h, _⟩
  · rw [h]
    exact misses_nil
  · rw [h]
    exact misses_nil
  · rw [h]
    exact misses_one t
  · rw [h]
    exact misses_nil
  · rw [h]
    exact misses_nil

theorem Move.closeRead {c : Cred} {i : Int32} (hm : Move s x f p) (hp : p = .closeRead c i) :
    s.pc x.task = .closeRead c i ∨ ∃ t, x = .call t c (.doeventclose i) := by
  cases hm with
  | call t c' k hpc =>
    right
    cases k <;> simp only [entry] at hp <;> (try split at hp) <;> cases hp
    exact ⟨t, rfl⟩
  | nomem t c' hpc | kmalloc t c' b hpc hfree => cases hp
  | posix t | deliver t hpc => exact .inl hp
  | run t f p hrq hnext =>
    have hf := Flow.of_next hnext
    generalize s.pc t = q at hf
    cases hf <;> cases hp

end

/-! ### Before and after the event is unlinked -/

/-- The schedule admits nothing but opens, closes of `v` and waits that were asleep. -/
structure Closers (v : Event) (s : State) : Prop where
  list : ListInv s
  kinds : CallsIn (fun k => k = .doeventopen ∨ k = .doeventclose ∨ k = .doeventwait) s
  readers : ∀ t c i, s.pc t = .closeRead c i →
    i = v.id ∧ validateEvent c true (some v) = true
  ids : ∀ t b, s.holds t .unlinking b → (s.mem b).id = v.id

/-- The event `v` at `a` is live, and every close finds it. -/
structure Live (v : Event) (a : Addr) (s : State) : Prop where
  first : searchLoop s.mem v.id none s.eventlist = some a
  attrs : (s.mem a).attrs = v.attrs
  unlinking : ∀ t b, s.holds t .unlinking b → b = a
  freeing : ∀ t b, ¬ s.holds t .freeing b

/-- How far the destruction of the event has come, with the log `l` of the marks so far. -/
inductive Progress (v : Event) (a : Addr) (l : List CloseMark) (s : State) : Prop where
  | live (h : Live v a s) (hopen : .opened a ∉ l) (hl : marksOf a l = [])
  | unlinked (t : Task) (l' : List CloseMark) (ht : s.holds t .freeing a) (hopen : .opened a ∉ l)
      (hl : marksOf a l = .unlinked t a :: l') (hmiss : Misses l')
  | freed (hout : a ∉ s.eventlist) (hnone : ∀ t, ¬ s.holds t .freeing a) (hopen : .opened a ∉ l)
      (hl : DestroyedOnce a (marksOf a l))
  | reopened (hopen : .opened a ∈ l) (hl : DestroyedOnce a (marksOf a l))

section
variable {v : Event} {a : Addr} {l : List CloseMark} {s s' : State} {x : Action} {f : Effect} {p : Pc}

theorem Live.listed (hi : Live v a s) : a ∈ s.eventlist := (searchLoop_some hi.first).1

theorem Live.found (hi : Live v a s) {c : Cred} (hc : validateEvent c true (some v) = true) :
    readSection s.mem s.eventlist c v.id = some a := by
  have hv : validateEvent c true (some (s.mem a)) = true := by
    have hattrs := hi.attrs
    simp only [Event.attrs, Prod.mk.injEq] at hattrs
    simpa [validateEvent, hattrs] using hc
  simp only [readSection, hi.first, Option.map_some, hv, if_true]

theorem Closers.no_change (hc : Closers v s) (hm : Move s x f p) :
    (∀ b U G, f ≠ .setOwner b U G) ∧ ∀ b U G, f ≠ .setFlags b U G := by
  have ho := hm.origin
  constructor <;> rintro b U G rfl <;> obtain ⟨c, hpc, _⟩ := ho
  · have := hc.kinds x.task .doeventchown (by rw [hpc]; rfl)
    cases this
  · have := hc.kinds x.task .doeventchmod (by rw [hpc]; rfl)
    cases this

theorem Closers.step (hi : Closers v s) (hx : InTurn v s x) (h : step s x = some s') :
    Closers v s' := by
  refine ⟨hi.list.step hx.2 h, hi.kinds.step ?_ h, ?_, ?_⟩
  · cases x with
    | call t c k => rcases hx.1 t c k rfl with rfl | ⟨rfl, _⟩ <;> rfl
    | _ => rfl
  · obtain ⟨f, p, hm, rfl⟩ := step_eq_some.mp h
    intro u c i hu
    by_cases hux : u = x.task
    · subst hux
      rcases hm.closeRead (by simpa using hu) with hr | ⟨t, hk⟩
      · exact hi.readers _ c i hr
      · rcases hx.1 t c _ hk with hk | ⟨hk, hval⟩
        · cases hk
        · cases hk
          exact ⟨rfl, hval⟩
    · exact hi.readers u c i (by simpa [hux] using hu)
  · obtain ⟨f, p, hm, rfl⟩ := step_eq_some.mp h
    intro u b hu
    have hb : b ∈ s.eventlist ∧ (s.mem b).id = v.id := by
      rcases hm.holds hu with hu | ⟨_, t, c, i, _, hpc, hr⟩
      · exact ⟨hi.list.unlinking u b hu, hi.ids u b hu⟩
      · obtain ⟨hb, hid, _⟩ := readSection_some hr
        exact ⟨hb, hid.trans (hi.readers t c i hpc).1⟩
    rw [goto_mem, apply_id]
    cases f with
    | openSection c d =>
      have hbd : b ≠ d := by
        rintro rfl
        exact (hi.list.owned x.task b (.inl (holds_of_pc hm.origin.1 rfl))).2.1 hb.1
      exact (if_neg hbd).trans hb.2
    | _ => exact hb.2

/-- While the event is live no close misses it, and the first mark is its unlinking. -/
theorem Live.marks (hi : Live v a s) (hc : Closers v s) (hv : isValidEventId v.id = false)
    (hx : ClosesOf v s x) (hm : Move s x f p) :
    ((∀ b q, f ≠ .closeSection b q) ∧ .opened a ∉ closeMarks s x ∧ marksOf a (closeMarks s x) = [] ∧
      ∀ o ∈ closeMarks s x, ∃ b, o = .opened b) ∨
    ∃ t q, closeMarks s x = [.unlinked t a] ∧ x = .run t ∧ f = .closeSection a q ∧
      s.pc t = .closeWrite a q := by
  rcases closeMarks_cases hm with ⟨h, _, hclose, _⟩ | ⟨t, c, b, h, _, rfl, hpc⟩ | ⟨t, _, _, h⟩ |
    ⟨t, b, q, h, hrun, hf, hpc⟩ | ⟨t, b, n, _, _, _, hpc⟩
  · exact .inl ⟨hclose, by simp [h], by simp [h, marksOf], by simp [h]⟩
  · have hba : a ≠ b := by
      rintro rfl
      exact (hc.list.owned t a (.inl (holds_of_pc hpc rfl))).2.1 hi.listed
    exact .inl ⟨by simp, by simp [h, hba], by simp [h, marksOf, CloseMark.concerns, Ne.symm hba],
      by simp [h]⟩
  · exfalso
    rcases h with ⟨c, i, _, hpc, hr⟩ | ⟨c, i, rfl, hvi⟩
    · obtain ⟨rfl, hval⟩ := hc.readers t c i hpc
      rw [hi.found hval] at hr
      cases hr
    · rcases hx t c _ rfl with hk | ⟨hk, _⟩ <;> cases hk
      rw [hv] at hvi
      cases hvi
  · have hb : b = a := hi.unlinking t b (holds_of_pc hpc rfl)
    subst hb
    exact .inr ⟨t, q, h, hrun, hf, hpc⟩
  · exact absurd (holds_of_pc hpc rfl) (hi.freeing t b)

theorem Live.step (hi : Live v a s) (hc : Closers v s) (hm : Move s x f p)
    (hclose : ∀ b q, f ≠ .closeSection b q) : Live v a ((apply s x.task f).goto x.task p) := by
  obtain ⟨howner, hflags⟩ := hc.no_change hm
  have hopen : ∀ c b, f = .openSection c b → b ∉ s.eventlist := by
    rintro c b rfl
    exact (hc.list.owned x.task b (.inl (holds_of_pc hm.origin.1 rfl))).2.1
  have hids : ∀ b ∈ s.eventlist, ((apply s x.task f).mem b).id = (s.mem b).id := by
    intro b hb
    rw [apply_id]
    cases f with
    | openSection c d =>
      have hbd : b ≠ d := fun hbd => hopen c d rfl (hbd ▸ hb)
      exact if_neg hbd
    | _ => rfl
  refine ⟨?_, ?_, ?_, ?_⟩
  · rw [goto_mem, goto_eventlist, apply_eventlist]
    cases f with
    | openSection c b => exact searchLoop_append hi.first hids
    | closeSection b q => exact absurd rfl (hclose b q)
    | _ => exact (searchLoop_congr v.id none hids).trans hi.first
  · rw [goto_mem, apply_attrs]
    cases f with
    | openSection c b =>
      have hab : a ≠ b := fun hab => hopen c b rfl (hab ▸ hi.listed)
      exact (if_neg hab).trans hi.attrs
    | setOwner b U G => exact absurd rfl (howner b U G)
    | setFlags b U G => exact absurd rfl (hflags b U G)
    | _ => exact hi.attrs
  · intro u b hu
    rcases hm.holds hu with hu | ⟨_, t, c, i, _, hpc, hr⟩
    · exact hi.unlinking u b hu
    · obtain ⟨rfl, hval⟩ := hc.readers t c i hpc
      rw [hi.found hval] at hr
      exact (Option.some.inj hr).symm
  · intro u b hu
    rcases hm.holds hu with hu | ⟨_, q, hf⟩
    · exact hi.freeing u b hu
    · exact hclose b q hf

/-- What the closes do once the event is unlinked, as long as its record is neither freed nor
filled in again. -/
theorem marks_unlisted (hlist : ListInv s) (hout : a ∉ s.eventlist) (hm : Move s x f p)
    (hopen : ∀ c, f ≠ .openSection c a) (hfree : f ≠ .kfree a) :
    .opened a ∉ closeMarks s x ∧ Misses (marksOf a (closeMarks s x)) := by
  rcases closeMarks_cases hm with ⟨h, _⟩ | ⟨t, c, b, h, _, rfl, _⟩ | ⟨t, h, _⟩ |
    ⟨t, b, q, h, _, _, hpc⟩ | ⟨t, b, n, h, _, rfl, _⟩
  · rw [h]
    exact ⟨List.not_mem_nil, misses_nil⟩
  · have hba : b ≠ a := fun hba => hopen c (by rw [hba])
    rw [h]
    exact ⟨by simp [Ne.symm hba], by simpa [marksOf, CloseMark.concerns, hba] using misses_nil⟩
  · rw [h]
    exact ⟨by simp, by simpa [marksOf, CloseMark.concerns] using misses_one t⟩
  · have hba : b ≠ a := fun hba => hout (hba ▸ hlist.unlinking t b (holds_of_pc hpc rfl))
    rw [h]
    exact ⟨by simp, by simpa [marksOf, CloseMark.concerns, hba] using misses_nil⟩
  · have hba : b ≠ a := fun hba => hfree (by rw [hba])
    rw [h]
    exact ⟨by simp, by simpa [marksOf, CloseMark.concerns, hba] using misses_nil⟩

/-- A record that a close is about to free stays in its hands until it frees it. -/
theorem freeing_step (hm : Move s x f p) {t : Task} {b : Addr} (h : s.holds t .freeing b) :
    ((apply s x.task f).goto x.task p).holds t .freeing b ∨
      (x.task = t ∧ f = .kfree b ∧ ∃ n : ℕ, s.pc t = .closeKfree b n) := by
  by_cases ht : t = x.task
  · subst ht
    rw [State.holds] at h
    cases hm with
    | call t c k hpc | deliver t hpc => rw [Action.task, hpc] at h; cases h
    | nomem t c hpc | kmalloc t c d hpc hfree => rw [Action.task, hpc] at h; cases h
    | posix t => exact .inl (holds_goto.mpr (.inl ⟨rfl, h⟩))
    | run t f p hrq hnext =>
      have hf := Flow.of_next hnext
      simp only [Action.task] at h ⊢
      generalize hpc : s.pc t = q at hf h
      cases hf with
      | closeKfree d n =>
        cases h
        exact .inr ⟨trivial, rfl, n, rfl⟩
      | _ => cases h
  · exact .inl (holds_goto.mpr (.inr ⟨ht, h⟩))

/-- As long as a close has yet to free a record, nobody else frees it or fills it in. -/
theorem ListInv.freeing_kept (hi : ListInv s) (hm : Move s x f p) {t : Task}
    (ht : s.holds t .freeing a) (ht' : ((apply s x.task f).goto x.task p).holds t .freeing a) :
    (∀ c, f ≠ .openSection c a) ∧ f ≠ .kfree a := by
  have honly : ∀ u, s.owns u a → u = t := fun u hu => hi.ownedOnce u t a hu (.inr ht)
  constructor
  · rintro c rfl
    rw [State.holds, ← honly x.task (.inl (holds_of_pc hm.origin.1 rfl)), hm.origin.1] at ht
    cases ht
  · rintro rfl
    obtain ⟨n, hpc, rfl⟩ := hm.origin
    rw [← honly x.task (.inr (holds_of_pc hpc rfl))] at ht'
    rcases holds_goto.mp ht' with ⟨_, hp⟩ | ⟨hne, _⟩
    · cases hp
    · exact hne rfl

theorem Progress.step (hi : Progress v a l s) (hc : Closers v s) (hv : isValidEventId v.id = false)
    (hcalls : ClosesOf v s x) (hm : Move s x f p) :
    Progress v a (l ++ closeMarks s x) ((apply s x.task f).goto x.task p) := by
  cases hi with
  | live h hopen hl =>
    rcases h.marks hc hv hcalls hm with ⟨hclose, hopen', hnone, _⟩ | ⟨t, q, hmark, rfl, rfl, hpc⟩
    · refine .live (h.step hc hm hclose) (by simp [hopen, hopen']) ?_
      rw [marksOf_append hopen, hl, hnone, List.append_nil]
    · refine .unlinked t [] (holds_goto.mpr (.inl ⟨rfl, ?_⟩)) (by simp [hopen, hmark]) ?_ misses_nil
      · rw [hm.origin.2]
        rfl
      · rw [marksOf_append hopen, hl, hmark]
        simp [marksOf, CloseMark.concerns]
  | unlinked t l' ht hopen hl hmiss =>
    have hout := (hc.list.owned t a (.inr ht)).2.1
    rcases freeing_step hm ht with ht' | ⟨rfl, rfl, n, hpc⟩
    · obtain ⟨hother, hfree⟩ := hc.list.freeing_kept hm ht ht'
      obtain ⟨hopen', hmiss'⟩ := marks_unlisted hc.list hout hm hother hfree
      refine .unlinked t (l' ++ marksOf a (closeMarks s x)) ht' (by simp [hopen, hopen']) ?_
        (hmiss.append hmiss')
      rw [marksOf_append hopen, hl, List.cons_append]
    · have hmark := hm.marks_kfree hpc
      obtain ⟨_, _, rfl⟩ := hm.origin
      refine .freed hout ?_ (by simp [hopen, hmark]) ⟨x.task, n, l', [], ?_, by simp, hmiss, misses_nil⟩
      · intro u hu
        rcases holds_goto.mp hu with ⟨_, hp⟩ | ⟨hne, hu⟩
        · cases hp
        · exact hne (hc.list.ownedOnce u x.task a (.inr hu) (.inr ht))
      · rw [marksOf_append hopen, hl, hmark]
        simp [marksOf, CloseMark.concerns]
  | freed hout hnone hopen hl =>
    by_cases hagain : ∃ c, f = .openSection c a
    · obtain ⟨c, rfl⟩ := hagain
      have hmark := hm.marks_openSection
      refine .reopened (by simp [hmark]) ?_
      rw [marksOf_append hopen, hmark]
      simpa [marksOf] using hl
    · have hother : ∀ c, f ≠ .openSection c a := fun c hf => hagain ⟨c, hf⟩
      have hfree : f ≠ .kfree a := by
        rintro rfl
        obtain ⟨n, hpc, _⟩ := hm.origin
        exact hnone x.task (holds_of_pc hpc rfl)
      obtain ⟨hopen', hmiss'⟩ := marks_unlisted hc.list hout hm hother hfree
      refine .freed ?_ ?_ (by simp [hopen, hopen']) ?_
      · intro ha
        rcases apply_listed ha with ha | hf
        · exact hout ha
        · exact hagain hf
      · intro u hu
        rcases hm.holds hu with hu | ⟨_, q, rfl⟩
        · exact hnone u hu
        · exact hout (hc.list.unlinking x.task a (holds_of_pc hm.origin.1 rfl))
      · rw [marksOf_append hopen]
        exact hl.append hmiss'
  | reopened hopen hl =>
    refine .reopened (List.mem_append_left _ hopen) ?_
    rw [marksOf_append_opened hopen]
    exact hl.append (misses_filter_missed hm)

end

/-! ### Whole runs -/

/-- Task `t` is in a close that has not come to its write section. -/
def State.closing (s : State) (t : Task) : Prop :=
  (∃ c i, s.pc t = .closeRead c i) ∨ ∃ b, s.holds t .unlinking b

/-- Such a close goes on without a mark of its own only to look up the event or to test its
queue. -/
theorem closing_step {s s' : State} {x : Action} {t : Task} (h : step s x = some s')
    (hmark : ∀ o ∈ closeMarks s x, ∃ b, o = .opened b) (hc : s.closing t) : s'.closing t := by
  have huser : s.pc t ≠ .user := fun hpc => by simp [State.closing, State.holds, hpc, Pc.hold] at hc
  have halloc : ∀ c, s.pc t ≠ .openAlloc c := fun c hpc => by
    simp [State.closing, State.holds, hpc, Pc.hold] at hc
  simp only [State.closing, State.holds] at hc ⊢
  rcases step_pc_cases h huser halloc with hpc | ⟨rfl, f, hf⟩
  · rw [hpc]
    exact hc
  · simp only [closeMarks] at hmark
    generalize s.pc t = q at hf hmark hc
    generalize s'.pc t = p at hf
    cases hf with
    | closeMiss c i hr => simp [hr] at hmark
    | closeFound c i b hr => exact .inr ⟨b, rfl⟩
    | closeActive b => exact .inr ⟨b, rfl⟩
    | closeWrite b process => simp at hmark
    | _ => simp [Pc.hold] at hc

theorem closing_of_call {s s' : State} {t : Task} {c : Cred} {i : Int32}
    (hv : isValidEventId i = false) (h : step s (.call t c (.doeventclose i)) = some s') :
    s'.closing t := by
  obtain ⟨f, p, hm, rfl⟩ := step_eq_some.mp h
  cases hm
  exact .inl ⟨c, i, by simp [entry, hv, Action.task]⟩

theorem not_closing_of_quiet {s : State} (h : s.quiet) (t : Task) : ¬ s.closing t := by
  rintro (⟨c, i, hpc⟩ | ⟨b, hb⟩)
  · have ht := h t
    rw [hpc] at ht
    cases ht
  · exact no_hold_of_quiet h (by simp) hb

section
variable {v : Event} {a : Addr} {s s' : State} {l : List CloseMark} {ys : List Action}

theorem progress_step {x : Action} (hv : isValidEventId v.id = false)
    (hi : Progress v a l s ∧ Closers v s) (hx : InTurn v s x) (h : step s x = some s') :
    Progress v a (l ++ closeMarks s x) s' ∧ Closers v s' := by
  refine ⟨?_, hi.2.step hx h⟩
  obtain ⟨f, p, hm, rfl⟩ := step_eq_some.mp h
  exact hi.1.step hi.2 hv hx.1 hm

theorem progress_run (hv : isValidEventId v.id = false) (h : Run step (InTurn v) s ys s')
    (hi : Progress v a l s ∧ Closers v s) :
    Progress v a (l ++ observe step closeMarks s ys) s' ∧ Closers v s' :=
  h.observed closeMarks (fun l s => Progress v a l s ∧ Closers v s) hi
    fun _ _ _ _ hi hx hstep => progress_step hv hi hx hstep

/-- From its entry on, a close is under way until the event is unlinked. -/
theorem closing_run (hv : isValidEventId v.id = false) (h : Run step (InTurn v) s ys s')
    (hi : Progress v a l s ∧ Closers v s) {t : Task} (ht : s.closing t) :
    marksOf a (l ++ observe step closeMarks s ys) = [] → s'.closing t := by
  have hend := h.observed closeMarks
    (fun l s => (Progress v a l s ∧ Closers v s) ∧ (marksOf a l = [] → s.closing t))
    ⟨hi, fun _ => ht⟩ ?_
  · exact hend.2
  · intro l s x s' hinv hx hstep
    refine ⟨progress_step hv hinv.1 hx hstep, fun hnil => ?_⟩
    have hclosing := hinv.2 (marksOf_eq_nil hnil)
    obtain ⟨⟨hprog, hc⟩, _⟩ := hinv
    cases hprog with
    | live hlive hopen hl =>
      obtain ⟨f, p, hm, rfl⟩ := step_eq_some.mp hstep
      rcases hlive.marks hc hv hx.1 hm with ⟨_, _, _, hopens⟩ | ⟨u, q, hmark, _⟩
      · exact closing_step hstep hopens hclosing
      · rw [marksOf_append hopen, hl, hmark] at hnil
        simp [marksOf, CloseMark.concerns] at hnil
    | unlinked u l' hu hopen hl hmiss =>
      rw [marksOf_eq_nil hnil] at hl
      cases hl
    | freed hout hnone hopen hl => exact absurd (marksOf_eq_nil hnil) hl.ne_nil
    | reopened hopen hl => exact absurd (marksOf_eq_nil hnil) hl.ne_nil

theorem Progress.once (hi : Progress v a l s) (hquiet : s.quiet) (hl : marksOf a l ≠ []) :
    DestroyedOnce a (marksOf a l) := by
  cases hi with
  | live h hopen hnil => exact absurd hnil hl
  | unlinked t l' ht hopen _ _ => exact absurd ht (no_hold_of_quiet hquiet (by simp))
  | freed hout hnone hopen h => exact h
  | reopened hopen h => exact h

theorem progress_start (hlist : ListInv s) (hids : IdsInv s) (hquiet : s.quiet)
    (ha : a ∈ s.eventlist) : Progress (s.mem a) a [] s ∧ Closers (s.mem a) s := by
  refine ⟨.live ⟨hids.search.mpr ⟨ha, rfl⟩, rfl, ?_, ?_⟩ List.not_mem_nil rfl, hlist, ?_, ?_, ?_⟩
  · exact fun t b h => absurd h (no_hold_of_quiet hquiet (by simp))
  · exact fun t b => no_hold_of_quiet hquiet (by simp)
  · intro t k hk
    have ht := hquiet t
    cases hpc : s.pc t <;> rw [hpc] at ht hk <;> cases ht <;> cases hk
    rfl
  · intro t c i hr
    have ht := hquiet t
    cases hpc : s.pc t <;> rw [hpc] at ht hr <;> cases ht <;> cases hr
  · exact fun t b h => absurd h (no_hold_of_quiet hquiet (by simp))

end

/-- Closes in turn destroy the event once: at any time it is live and untouched, or it has
been unlinked by one close and every other one that found no later event returned -1, or that
close has freed it and returned a count; and when all calls are over and one of them was a
close, it is destroyed. Whatever a close is about to unlink is listed under the id it was
given, and whatever it is about to free is off the list and in use. -/
theorem event_destroyed_once (mem : Addr → Event) (user : Task → UserMem) (xs : List Action)
    (s : State) (hrun : Run step OrderlyStep (doeventInit mem user) xs s) (hquiet : s.quiet)
    (a : Addr) (ha : a ∈ s.eventlist) (ys : List Action) (m : State)
    (hrest : Run step (InTurn (s.mem a)) s ys m) :
    ((a ∈ m.eventlist ∧ marksOf a (observe step closeMarks s ys) = []) ∨
      (∃ t l, marksOf a (observe step closeMarks s ys) = .unlinked t a :: l ∧ Misses l) ∨
      DestroyedOnce a (marksOf a (observe step closeMarks s ys))) ∧
    (m.quiet → (∃ t c, .call t c (.doeventclose (s.mem a).id) ∈ ys) →
      DestroyedOnce a (marksOf a (observe step closeMarks s ys))) ∧
    (∀ t b, m.holds t .unlinking b → b ∈ m.eventlist ∧ (m.mem b).id = (s.mem a).id) ∧
    ∀ t b, m.holds t .freeing b → b ∉ m.eventlist ∧ m.inUse b = true := by
  obtain ⟨hlist, hids⟩ :=
    orderly_run_inv hrun (doeventInit_listInv mem user) (doeventInit_idsInv mem user)
  have hv := hids.valid ha
  have hstart := progress_start hlist hids hquiet ha
  obtain ⟨hend, hc⟩ := progress_run hv hrest hstart
  rw [List.nil_append] at hend
  refine ⟨?_, ?_, fun t b hb => ⟨hc.list.unlinking t b hb, hc.ids t b hb⟩, fun t b hb =>
    ⟨(hc.list.owned t b (.inr hb)).2.1, (hc.list.owned t b (.inr hb)).1⟩⟩
  · cases hend with
    | live h hopen hl => exact .inl ⟨h.listed, hl⟩
    | unlinked t l _ _ hl hmiss => exact .inr (.inl ⟨t, l, hl, hmiss⟩)
    | freed _ _ _ hl => exact .inr (.inr hl)
    | reopened _ hl => exact .inr (.inr hl)
  · intro hmq hcalled
    obtain ⟨t, c, hcall⟩ := hcalled
    refine hend.once hmq ?_
    obtain ⟨ys₁, ys₂, rfl⟩ := List.append_of_mem hcall
    obtain ⟨n, hn, htail⟩ := hrest.split
    have hmid := progress_run hv hn hstart
    rw [hn.observe_append closeMarks]
    cases htail with
    | cons hok hstep hr =>
      rw [observe, hstep, Option.elim_some, ← List.append_assoc]
      exact fun hnil => not_closing_of_quiet hmq t
        (closing_run hv hr (progress_step hv hmid hok hstep) (closing_of_call hv hstep) hnil)

/-! ### Two closes of one event -/

/-- Two root tasks start to close event 0. -/
def twoCloses : List Action :=
  [.call 1 rootCred (.doeventclose 0), .call 2 rootCred (.doeventclose 0)]

/-- The second close looks the event up after the first one has unlinked it. Then an open
gets the same record and issues the same id, and a third task closes the new event. -/
def closesInTurn : List Action :=
  twoCloses ++ runs 1 3 ++ runs 2 1 ++ runs 1 1 ++ opens 0 rootCred 1 ++
    [.call 3 rootCred (.doeventclose 0)] ++ runs 3 4

/-- Both closes look the event up before one of them unlinks it. -/
def closesOverlap : List Action := twoCloses ++ runs 1 1 ++ runs 2 1 ++ runs 1 3 ++ runs 2 3

def rootCloses : Action → Bool
  | .call _ c k => c == rootCred && (k == .doeventopen || k == .doeventclose 0)
  | _ => true

theorem closesOf_root {v : Event} (hid : v.id = 0) {s : State} {x : Action}
    (h : rootCloses x = true) : ClosesOf v s x := by
  rintro t c k rfl
  simp only [rootCloses, Bool.and_eq_true, Bool.or_eq_true, beq_iff_eq] at h
  obtain ⟨rfl, rfl | rfl⟩ := h
  · exact .inl rfl
  · exact .inr ⟨by rw [hid], by simp [validateEvent, rootCred]⟩

theorem openedEvent :
    ∃ s, Run step OrderlyStep boot (opens 0 rootCred 1) s ∧ s.idleFrom 4 ∧ s.quiet ∧
      s.eventlist = [1] ∧ (s.mem 1).id = 0 ∧
      (steps step (fun s x => decide (x.task < 4) && (rootCloses x && unlinksAloneTest 4 s x)) s
        closesInTurn).map (fun m => (List.range 4).all fun u => (m.pc u).parked) = some true ∧
      (steps step (fun _ x => rootCloses x) s closesOverlap).map (fun _ => true) = some true ∧
      marksOf 1 (observe step closeMarks s closesOverlap) =
        [.unlinked 1 1, .freed 1 1, .closed 1 (some 1) 0, .unlinked 2 1, .freed 2 1,
          .closed 2 (some 1) 0] := by
  obtain ⟨s, hs, hi, ht⟩ := run_of_idle_test OrderlyStep (opens 0 rootCred 1) 1
    (fun s _ => decide (¬ IdsExhausted s))
    (fun s => ((List.range 1).all fun u => (s.pc u).parked) &&
      decide (s.eventlist = [1] ∧ (s.mem 1).id = 0 ∧
        (steps step (fun s x => decide (x.task < 4) && (rootCloses x && unlinksAloneTest 4 s x)) s
          closesInTurn).map (fun m => (List.range 4).all fun u => (m.pc u).parked) = some true ∧
        (steps step (fun _ x => rootCloses x) s closesOverlap).map (fun _ => true) = some true ∧
        marksOf 1 (observe step closeMarks s closesOverlap) =
          [.unlinked 1 1, .freed 1 1, .closed 1 (some 1) 0, .unlinked 2 1, .freed 2 1,
            .closed 2 (some 1) 0]))
    (by decide) (boot_idleFrom 1) fun s x hi h => ⟨closesApart_of_solo hi, of_decide_eq_true h⟩
  rw [Bool.and_eq_true, decide_eq_true_eq] at ht
  exact ⟨s, hs, fun t h => hi t (Nat.le_trans (by decide) h), quiet_of_test hi ht.1, ht.2⟩

theorem event_destroyed_once_inTurn :
    ∃ s m, Run step OrderlyStep boot (opens 0 rootCred 1) s ∧
      Run step (InTurn (s.mem 1)) s closesInTurn m ∧
      DestroyedOnce 1 (marksOf 1 (observe step closeMarks s closesInTurn)) := by
  obtain ⟨s, hs, hi, hquiet, hlist, hid, hturn, _⟩ := openedEvent
  obtain ⟨m, hm, him, hpark⟩ := run_of_idle_test (InTurn (s.mem 1)) closesInTurn 4 _ _ hturn hi
    fun s x hi h => by
      obtain ⟨hroot, halone⟩ := Bool.and_eq_true_iff.mp h
      exact ⟨closesOf_root hid hroot, unlinksAlone_of_test hi halone⟩
  exact ⟨s, m, hs, hm, (event_destroyed_once bootMem bootUser _ s hs hquiet 1 (by simp [hlist]) _ m
    hm).2.1 (quiet_of_test him hpark) ⟨1, rootCred, by simp [closesInTurn, twoCloses, hid]⟩⟩

theorem event_destroyed_twice :
    ¬ ∀ mem user xs s a ys m, Run step OrderlyStep (doeventInit mem user) xs s → s.quiet →
      a ∈ s.eventlist → Run step (ClosesOf (s.mem a)) s ys m →
      (a ∈ m.eventlist ∧ marksOf a (observe step closeMarks s ys) = []) ∨
      (∃ t l, marksOf a (observe step closeMarks s ys) = .unlinked t a :: l ∧ Misses l) ∨
      DestroyedOnce a (marksOf a (observe step closeMarks s ys)) := by
  intro hclaim
  obtain ⟨s, hs, _, hquiet, hlist, hid, _, hover, hmarks⟩ := openedEvent
  obtain ⟨m, hm, _⟩ : ∃ m, Run step (ClosesOf (s.mem 1)) s closesOverlap m ∧ true = true :=
    Run.of_test _ _ hover fun _ _ h => closesOf_root hid h
  have honce := hclaim bootMem bootUser _ s 1 closesOverlap m hs hquiet (by simp [hlist]) hm
  rw [hmarks] at honce
  have hsecond : .unlinked 2 1 ∈ [CloseMark.freed 1 1, .closed 1 (some 1) 0, .unlinked 2 1,
    .freed 2 1, .closed 2 (some 1) 0] := by simp
  rcases honce with ⟨_, h⟩ | ⟨t, l, h, hl⟩ | ⟨t, r, l₁, l₂, h, _, hl₁, hl₂⟩
  · cases h
  · cases h
    obtain ⟨t, ht⟩ := hl _ hsecond
    cases ht
  · injection h with _ htail
    rw [htail] at hsecond
    simp only [List.mem_append, List.mem_cons, reduceCtorEq, false_or] at hsecond
    rcases hsecond with h | h
    · obtain ⟨t, ht⟩ := hl₁ _ h
      cases ht
    · obtain ⟨t, ht⟩ := hl₂ _ h
      cases ht

end DoEvent
