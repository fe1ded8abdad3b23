import DoEvent.Locked.Invariant

/-!
# The ring and the sequence of live events

What the event list is for is a sequence: open puts its event at the end, close takes its
event out, and the other calls look events up. While the calls are made one at a time the
`eventlist` nodes in memory represent this sequence in every state, so the walks over the
links end, and they find what the sequence has.
-/

namespace DoEvent.Locked

open Shared Transition

/-! ### One call at a time -/

/-- Only the acting task may be awake inside a call; POSIX signals come at any time. -/
def OneAtATime (s : State) (x : Action) : Prop :=
  (∃ u, x = .posix u) ∨ ∀ u, u ≠ x.task → (s.pc u).parked = true

def Store.isId : Store → Bool
  | .id _ => true
  | _ => false

/-- The records of the ring keep to the sequence `l`, and the sentinel keeps its id. -/
structure SeqInv (s : State) (l : List Addr) : Prop where
  alone : ∀ t u, (s.pc t).parked = false → (s.pc u).parked = false → t = u
  awake : ∀ t, (s.sched t).onRq = true ∨ ∃ e, s.pc t = .waitAsleep e
  list : Inv s l
  sentinel : (s.node allevents).id = -1
  numbering : ∀ t, ∀ w ∈ (s.pc t).todo, w.2.isId = true → w.1 ≠ allevents

theorem SeqInv.init (node : Addr → Node) (user : Task → UserMem) :
    SeqInv (doeventInit node user) [] where
  alone := fun t u h => by cases h
  awake := fun t => .inl rfl
  list := .init node user
  sentinel := by simp [doeventInit]
  numbering := fun t w hw => by cases hw

section
variable {s s' m : State} {l : List Addr} {t u : Task} {q p : Pc} {e : Effect} {x : Action}

theorem closes_of_parked (h : q.parked = true) : q.closes = none := by
  cases q with
  | user | ret | waitAsleep => rfl
  | _ => cases h

theorem SeqInv.closes_apart (hi : SeqInv s l) : ClosesApart s := by
  have hawake : ∀ t e, (s.pc t).closes = some e → (s.pc t).parked = false := by
    intro t e hc
    refine Bool.eq_false_iff.mpr fun hp => ?_
    rw [closes_of_parked hp] at hc
    cases hc
  exact fun t u e ht hu => hi.alone t u (hawake t e ht) (hawake u e hu)

theorem alone_step (hi : ∀ t u, (s.pc t).parked = false → (s.pc u).parked = false → t = u)
    (hx : OneAtATime s x) (h : step s x = some s') :
    ∀ t u, (s'.pc t).parked = false → (s'.pc u).parked = false → t = u := by
  have hmove := Move.of_step h
  rcases hx with ⟨v, rfl⟩ | hparked
  · cases hmove
    exact hi
  · have hacts : ∀ t, (s'.pc t).parked = false → t = x.task := by
      intro t ht
      by_contra hne
      rw [hmove.pc_of_ne hne, hparked t hne] at ht
      cases ht
    intro t u ht hu
    rw [hacts t ht, hacts u hu]

/-! ### Tasks that are off the run queue -/

theorem asleep_of_schedule (h : next s t q = some (.schedule, p)) : ∃ e, p = .waitAsleep e := by
  cases q with
  | waitSchedule a =>
    cases h
    exact ⟨a, rfl⟩
  | stores todo k => cases todo <;> cases h
  | _ => cases h

theorem awake_step (hi : ∀ t, (s.sched t).onRq = true ∨ ∃ e, s.pc t = .waitAsleep e)
    (h : step s x = some s') (u : Task) : (s'.sched u).onRq = true ∨ ∃ e, s'.pc u = .waitAsleep e := by
  cases Move.of_step h with
  | call t _ _ hpc | nomem t _ hpc | kmalloc t _ _ hpc _ =>
    by_cases hu : u = t
    · subst hu
      exact (hi u).elim .inl fun ha => by simp [hpc] at ha
    · rw [goto_pc_of_ne hu]
      exact hi u
  | run t e p m hrq hnext happly =>
    by_cases hu : u = t
    · subst hu
      rw [goto_pc]
      by_cases he : e = .schedule
      · subst he
        exact .inr (asleep_of_schedule hnext)
      · exact .inl ((apply_keeps happly).onRq u hrq fun hs => absurd hs he)
    · rw [goto_pc_of_ne hu, apply_pc happly]
      exact (hi u).imp_left fun hon => (apply_keeps happly).onRq u hon fun _ => hu
  | posix t => exact (hi u).imp_left fun hon => onRq_setSched hon onRq_signalWakeUp
  | deliver t hpc => exact (hi u).imp_left fun hon => onRq_setSched hon id

/-! ### Ids -/

theorem storeAt_id (node : Addr → Node) {w : Addr × Store} {a : Addr}
    (hw : w.2.isId = true → w.1 ≠ a) : (storeAt node w a).id = (node a).id := by
  by_cases ha : a = w.1
  · subst ha
    rw [storeAt, Function.update_self]
    obtain ⟨b, w⟩ := w
    cases w with
    | id x => exact absurd rfl (hw rfl)
    | _ => rfl
  · rw [storeAt_of_ne node w ha]

theorem apply_id {a : Addr} (happly : apply s t e = some m)
    (he : ∀ w, e = .store w → w.2.isId = true → w.1 ≠ a) : (m.node a).id = (s.node a).id := by
  cases e with
  | store w =>
    cases happly
    exact storeAt_id s.node (he w rfl)
  | _ => exact fixed_id ((apply_keeps happly).fixed (fun w hw => by cases hw) a)

/-- Only the stores of the fields of a new record bring an id. -/
theorem next_ids (h : next s t q = some (e, p)) {w : Addr × Store} (hw : w ∈ p.todo)
    (hid : w.2.isId = true) : w ∈ q.todo ∨ ∃ c last, q = .openLastid c w.1 last := by
  cases q with
  | user | openAlloc => cases h
  | stores todo k =>
    cases todo with
    | nil =>
      cases h
      cases k <;> cases hw
    | cons v todo =>
      cases h
      cases k with
      | initListHead => cases hw
      | _ => exact .inl (List.mem_cons_of_mem _ hw)
  | openPrev c a =>
    cases h
    simp only [Pc.todo, listAdd, List.mem_cons, List.not_mem_nil, or_false] at hw
    rcases hw with rfl | rfl | rfl | rfl <;> cases hid
  | closeNext a n prev =>
    cases h
    simp only [Pc.todo, listDelInit, initListHead, List.cons_append, List.nil_append, List.mem_cons,
      List.not_mem_nil, or_false] at hw
    rcases hw with rfl | rfl | rfl | rfl <;> cases hid
  | openLastid c a last =>
    cases h
    simp only [Pc.todo, openFields, List.mem_cons, List.not_mem_nil, or_false] at hw
    rcases hw with rfl | rfl | rfl | rfl | rfl | rfl | rfl <;> exact .inr ⟨c, last, rfl⟩
  | changeLock v a =>
    cases h
    cases v <;>
    · simp only [Pc.todo, Change.stores, List.mem_cons, List.not_mem_nil, or_false] at hw
      rcases hw with rfl | rfl <;> cases hid
  | closeCount a n | sigCount a n =>
    cases h
    split_ifs at hw
    · cases hw
    · simp only [Pc.todo, List.mem_cons, List.not_mem_nil, or_false] at hw
      subst hw
      cases hid
  | searchFirst k i v =>
    cases h
    rw [(k.loopTest_holds i v _).todo] at hw
    cases hw
  | searchNext k i pos =>
    cases h
    rw [(k.loopTest_holds i none _).todo] at hw
    cases hw
  | searchId k i pos =>
    cases h
    split_ifs at hw
    · rw [(k.found_holds i pos).todo] at hw
      cases hw
    · cases hw
  | infoFirst num r =>
    cases h
    rw [(infoTest_holds _ num r _ _).todo] at hw
    cases hw
  | infoNext num r arr check pos =>
    cases h
    rw [(infoTest_holds _ num r _ _).todo] at hw
    cases hw
  | granted aim a =>
    cases h
    cases aim <;> cases hw
  | statProbe i b junk =>
    cases h
    split at hw
    · cases hw
    · split_ifs at hw <;> cases hw
  | checkUid | checkUidFlag | checkGid | checkGidFlag | checkOwner | closeLock | waitTest | waitRetest
  | waitSignal | sigActive | statUnlock | infoProbe =>
    cases h
    split_ifs at hw <;> cases hw
  | _ =>
    cases h
    cases hw

/-- A store is one that the task owed, or the reset of the condition in wait. -/
theorem next_store {w : Addr × Store} (h : next s t q = some (.store w, p)) :
    (∃ todo k, q = .stores (w :: todo) k) ∨ w.2.isId = false := by
  cases q with
  | stores todo k =>
    cases todo with
    | nil => cases h
    | cons v todo =>
      cases h
      exact .inl ⟨todo, k, rfl⟩
  | waitReset a =>
    cases h
    exact .inr rfl
  | _ => cases h

theorem SeqInv.store_id (hi : SeqInv s l) {w : Addr × Store} (h : next s t (s.pc t) = some (.store w, p))
    (hid : w.2.isId = true) : w.1 ≠ allevents := by
  rcases next_store h with ⟨todo, k, hpc⟩ | hnot
  · by_cases hk : ∃ c a, k = .initListHead c a
    · -- A new record is not the sentinel.
      obtain ⟨c, a, rfl⟩ := hk
      have hok := hi.list.pcs t
      rw [hpc] at hok
      have hout := (hi.list.owned t a (by rw [hpc]; rfl)).2
      rw [hok w (List.mem_cons_self ..)]
      rintro rfl
      exact hout (List.mem_cons_self ..)
    · refine hi.numbering t w ?_ hid
      rw [hpc]
      cases k with
      | initListHead c a => exact absurd ⟨c, a, rfl⟩ hk
      | _ => exact List.mem_cons_self ..
  · rw [hnot] at hid
    cases hid

theorem Inv.nodup (hi : Inv s l) : (allevents :: l).Nodup := by
  by_cases hw : ∃ t, (s.pc t).access = .write
  · obtain ⟨t, ht⟩ := hw
    exact (hi.settled t ht).nodup
  · exact (hi.free fun t ht => hw ⟨t, ht⟩).nodup

theorem Inv.ne_sentinel (hi : Inv s l) {a : Addr} (ha : a ∈ l) : a ≠ allevents := by
  rintro rfl
  exact (List.nodup_cons.mp hi.nodup).1 ha

theorem SeqInv.ids_step (hi : SeqInv s l) (h : step s x = some s') :
    (s'.node allevents).id = -1 ∧ ∀ t, ∀ w ∈ (s'.pc t).todo, w.2.isId = true → w.1 ≠ allevents := by
  -- The task that acts; the others owe what they owed.
  have hgoto : ∀ (m : State) (t : Task) (p : Pc), m.pc = s.pc →
      (∀ w ∈ p.todo, w.2.isId = true → w.1 ≠ allevents) →
      ∀ u, ∀ w ∈ ((m.goto t p).pc u).todo, w.2.isId = true → w.1 ≠ allevents := by
    intro m t p hpc hp u
    by_cases hu : u = t
    · rw [hu, goto_pc]
      exact hp
    · rw [goto_pc_of_ne hu, hpc]
      exact hi.numbering u
  cases Move.of_step h with
  | call t c k hpc =>
    refine ⟨hi.sentinel, hgoto s t _ rfl ?_⟩
    rw [(entry_holds c k).todo]
    exact List.forall_mem_nil _
  | nomem t c hpc => exact ⟨hi.sentinel, hgoto s t _ rfl (List.forall_mem_nil _)⟩
  | kmalloc t c a hpc hfree => exact ⟨hi.sentinel, hgoto _ t _ rfl (List.forall_mem_nil _)⟩
  | posix | deliver => exact ⟨hi.sentinel, hi.numbering⟩
  | run t e p m hrq hnext happly =>
    constructor
    · have hid : (m.node allevents).id = (s.node allevents).id :=
        apply_id happly fun w he => hi.store_id (he ▸ hnext)
      exact hid.trans hi.sentinel
    · refine hgoto m t p (apply_pc happly) fun w hw hid => ?_
      rcases next_ids hnext hw hid with hold | ⟨c, last, hpc⟩
      · exact hi.numbering t w hold hid
      · have hok := hi.list.pcs t
        rw [hpc] at hok
        obtain ⟨xs, rfl, _⟩ := hok
        exact hi.list.ne_sentinel (List.mem_append_right _ (List.mem_singleton_self _))

/-- One step of the ring is one edit of the sequence. -/
theorem SeqInv.step (hi : SeqInv s l) (hx : OneAtATime s x) (h : Locked.step s x = some s') :
    SeqInv s' ((edits s x).foldl Edit.act l) where
  alone := alone_step hi.alone hx h
  awake := awake_step hi.awake h
  list := hi.list.step hi.closes_apart h
  sentinel := (hi.ids_step h).1
  numbering := (hi.ids_step h).2

end

theorem SeqInv.run {s s' : State} {l : List Addr} {xs : List Action} (hi : SeqInv s l)
    (h : Run Locked.step OneAtATime s xs s') :
    SeqInv s' ((observe Locked.step edits s xs).foldl Edit.act l) := by
  have hrun := h.observed edits (fun h s => SeqInv s (h.foldl Edit.act l)) (l := []) hi ?_
  · exact hrun
  · intro h s x s' hi hx hst
    rw [List.foldl_append]
    exact hi.step hx hst

/-! ### Walks over the links -/

/-- Following `next` from `allevents` leads through `l` and back, meeting each node once, and
`prev` is its inverse. -/
structure Threads (node : Addr → Node) (l : List Addr) : Prop where
  once : (allevents :: l).Nodup
  next : List.iterate (fun a => (node a).next) (node allevents).next (l.length + 1) = l ++ [allevents]
  inverse : ∀ a ∈ allevents :: l, (node (node a).next).prev = a ∧ (node (node a).prev).next = a

theorem threads_of_ring {node : Addr → Node} {l : List Addr}
    (h : (links node).Ring allevents l) : Threads node l :=
  ⟨h.nodup, h.iterate_next, fun _ ha => h.inverse ha⟩

/-- Where a search for `eventID` leaves the loop over the sequence `l`. -/
def Lookup.searched (k : Lookup) (node : Addr → Node) (eventID : Int32) (l : List Addr) : Pc :=
  match l.find? fun e => (node e).id = eventID with
  | some e => k.found eventID e
  | none => k.exit eventID none

section
variable {s : State} {l : List Addr} {t : Task} {q p : Pc}

theorem next_goto (u : Task) (q p : Pc) : next (s.goto u q) t p = next s t p := by
  cases p with
  | stores todo k => cases todo <;> rfl
  | _ => rfl

theorem goto_goto (q p : Pc) : (s.goto t q).goto t p = s.goto t p := by
  simp [State.goto]

section
variable (hrq : (s.sched t).onRq = true) (hothers : ∀ u, u ≠ t → (s.pc u).parked = true)
include hrq hothers

theorem run_skip (h : next s t q = some (.skip, p)) :
    Run step OneAtATime (s.goto t q) [.run t] (s.goto t p) := by
  refine .single (.inr fun u hu => ?_) ?_
  · have hne : u ≠ t := hu
    rw [goto_pc_of_ne hne]
    exact hothers u hne
  · have hon : ((s.goto t q).sched t).onRq = true := hrq
    rw [step, if_pos hon, goto_pc, next_goto, h]
    simp only [Option.bind_some, Locked.apply, Option.map_some, goto_goto]

theorem run_skip_cons {n : ℕ} {s' : State} (h : next s t q = some (.skip, p))
    (hrest : Run step OneAtATime (s.goto t p) (runs t n) s') :
    Run step OneAtATime (s.goto t q) (runs t (n + 1)) s' :=
  (run_skip hrq hothers h).append hrest

variable (hring : (links s.node).Ring allevents l)
include hring

/-- The loop over the nodes that are left, from its test on. -/
theorem run_search (k : Lookup) (i : Int32) (xs rest : List Addr) (hl : l = xs ++ rest) :
    ∃ n, n ≤ 2 * rest.length ∧
      Run step OneAtATime (s.goto t (k.loopTest i none (rest.headD allevents))) (runs t n)
        (s.goto t (k.searched s.node i rest)) := by
  induction rest generalizing xs with
  | nil => exact ⟨0, Nat.le_refl _, .nil _⟩
  | cons a rest ih =>
    subst hl
    have ha : a ≠ allevents := hring.ne_head (by simp)
    rw [Lookup.loopTest, List.headD_cons, if_neg ha]
    by_cases hid : (s.node a).id = i
    · refine ⟨1, by rw [List.length_cons]; omega, run_skip hrq hothers ?_⟩
      rw [next, if_pos hid, Lookup.searched, List.find?_cons_of_pos (by simpa using hid)]
    · obtain ⟨n, hn, hrun⟩ := ih (xs ++ [a]) (by simp)
      have hnext : (s.node a).next = rest.headD allevents := hring.next_member
      refine ⟨n + 2, by rw [List.length_cons]; omega, ?_⟩
      rw [Lookup.searched, List.find?_cons_of_neg (by simpa using hid)]
      refine run_skip_cons hrq hothers (by rw [next, if_neg hid]) (run_skip_cons hrq hothers ?_ hrun)
      rw [next, hnext]

theorem run_info (num : Int32) (r : Option ℕ) (xs rest : List Addr) (hl : l = xs ++ rest)
    (arr : List Int32) (check : Int32) :
    ∃ n, n ≤ 2 * rest.length ∧
      Run step OneAtATime (s.goto t (infoTest num r arr check (rest.headD allevents))) (runs t n)
        (s.goto t (.infoUnlock num r (infoLoop (events s.node) num r.isSome rest arr check).1
          (infoLoop (events s.node) num r.isSome rest arr check).2)) := by
  induction rest generalizing xs arr check with
  | nil => exact ⟨0, Nat.le_refl _, .nil _⟩
  | cons a rest ih =>
    subst hl
    have ha : a ≠ allevents := hring.ne_head (by simp)
    have hnext : (s.node a).next = rest.headD allevents := hring.next_member
    rw [infoTest, List.headD_cons, if_neg ha, infoLoop]
    split_ifs with hc
    · obtain ⟨n, hn, hrun⟩ := ih (xs ++ [a]) (by simp) (setAt arr check (s.node a).id) (check + 1)
      refine ⟨n + 2, by rw [List.length_cons]; omega, ?_⟩
      refine run_skip_cons hrq hothers rfl (run_skip_cons hrq hothers ?_ hrun)
      rw [next, hnext]
    · obtain ⟨n, hn, hrun⟩ := ih (xs ++ [a]) (by simp) arr (check + 1)
      refine ⟨n + 1, by rw [List.length_cons]; omega, run_skip_cons hrq hothers ?_ hrun⟩
      rw [next, hnext]

end

theorem SeqInv.others_parked (hi : SeqInv s l) (ht : (s.pc t).parked = false) {u : Task} (hu : u ≠ t) :
    (s.pc u).parked = true := by
  by_contra hp
  exact hu (hi.alone u t (by simpa using hp) ht)

theorem SeqInv.onRq (hi : SeqInv s l) (ht : (s.pc t).parked = false) : (s.sched t).onRq = true := by
  refine (hi.awake t).resolve_right fun hasleep => ?_
  obtain ⟨e, he⟩ := hasleep
  rw [he] at ht
  cases ht

theorem goto_self (hpc : s.pc t = q) : s.goto t q = s := by
  rw [← hpc, State.goto, Function.update_eq_self]

/-- A search takes at most two steps for each live event, and finds the first one with the id
if there is one. Over an empty list its result is what the cursor was before. -/
theorem SeqInv.search {k : Lookup} {i : Int32} {w : Option Addr} (hi : SeqInv s l)
    (hpc : s.pc t = .searchFirst k i w) (hcursor : l ≠ [] ∨ w = none) :
    ∃ n, n ≤ 2 * l.length + 1 ∧
      Run Locked.step OneAtATime s (runs t n) (s.goto t (k.searched s.node i l)) := by
  have hawake : (s.pc t).parked = false := by rw [hpc]; rfl
  have hring := hi.list.ring_held (t := t) (by rw [hpc]; rfl) (by rw [hpc]; simp [Pc.access])
  obtain ⟨n, hn, hrun⟩ := run_search (hi.onRq hawake) (fun _ => hi.others_parked hawake) hring k i [] l rfl
  have hfirst : (s.node allevents).next = l.headD allevents := hring.next_head
  have htest : k.loopTest i w (l.headD allevents) = k.loopTest i none (l.headD allevents) := by
    rcases hcursor with hne | rfl
    · cases l with
      | nil => exact absurd rfl hne
      | cons a l =>
        have ha : a ≠ allevents := hi.list.ne_sentinel (List.mem_cons_self ..)
        rw [List.headD_cons, Lookup.loopTest, Lookup.loopTest, if_neg ha, if_neg ha]
    · rfl
  refine ⟨n + 1, by omega, ?_⟩
  have hall := run_skip_cons (hi.onRq hawake) (fun _ => hi.others_parked hawake) (q := .searchFirst k i w)
    (by rw [next, hfirst, htest]) hrun
  rwa [goto_self hpc] at hall

theorem SeqInv.info {num : Int32} {r : Option ℕ} (hi : SeqInv s l) (hpc : s.pc t = .infoFirst num r) :
    ∃ n, n ≤ 2 * l.length + 1 ∧
      Run Locked.step OneAtATime s (runs t n)
        (s.goto t (.infoUnlock num r (infoLoop (events s.node) num r.isSome l (infoArray num) 0).1
          (infoLoop (events s.node) num r.isSome l (infoArray num) 0).2)) := by
  have hawake : (s.pc t).parked = false := by rw [hpc]; rfl
  have hring := hi.list.ring_held (t := t) (by rw [hpc]; rfl) (by rw [hpc]; simp [Pc.access])
  obtain ⟨n, hn, hrun⟩ := run_info (hi.onRq hawake) (fun _ => hi.others_parked hawake) hring num r [] l rfl
    (infoArray num) 0
  have hfirst : (s.node allevents).next = l.headD allevents := hring.next_head
  refine ⟨n + 1, by omega, ?_⟩
  have hall := run_skip_cons (hi.onRq hawake) (fun _ => hi.others_parked hawake) (q := .infoFirst num r)
    (by rw [next, hfirst]) hrun
  rwa [goto_self hpc] at hall

end

end DoEvent.Locked
