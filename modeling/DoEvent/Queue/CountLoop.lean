import DoEvent.Queue.WakeLoop

/-!
# The loop that counts the waiting tasks

`sys_doeventsig` and `sys_doeventclose` follow the `next` links of the queue without
`queue.lock`. Entries that are added meanwhile do no harm: `__list_add` publishes an entry
with its last store, so the loop sees the queue as it was at its first load. An entry that
`finish_wait` takes off while the cursor is on it is another matter. It is closed on itself,
and the loop goes round in it for good, under the lock of the event list.
-/

namespace DoEvent.Queue

open Shared Transition
open Links (Store)

section
variable {s s' : State} {l l' rest : List Task} {t u v : Task} {p q : Pc} {x : Action}
  {k k' : Links ListHead} {pos : ListHead}

/-! ### Following the links forward -/

/-- The `next` links lead from `pos` through the entries of `l` to the head. -/
def Forward (k : Links ListHead) : ListHead → List Task → Prop
  | pos, [] => pos = .taskList
  | pos, u :: l => pos = .entry u ∧ Forward k (k.next (.entry u)) l

theorem Forward.of_suffix (hr : k.Ring .taskList (l.map .entry)) {xs ys : List Task}
    (hl : l = xs ++ ys) : Forward k (first ys) ys := by
  induction ys generalizing xs with
  | nil => rfl
  | cons u ys ih =>
    refine ⟨rfl, ?_⟩
    have hnext : k.next (.entry u) = first ys := by
      rw [hl, List.map_append, List.map_cons] at hr
      exact hr.next_member
    rw [hnext]
    exact @ih (xs ++ [u]) (by simp [hl])

theorem Forward.of_ring (hr : k.Ring .taskList (l.map .entry)) : Forward k (k.next .taskList) l := by
  have hfirst : k.next .taskList = first l := hr.next_head
  rw [hfirst]
  exact Forward.of_suffix hr (List.nil_append l).symm

theorem Forward.congr (h : Forward k pos l)
    (hsame : ∀ u ∈ l, k'.next (.entry u) = k.next (.entry u)) : Forward k' pos l := by
  induction l generalizing pos with
  | nil => exact h
  | cons u l ih =>
    refine ⟨h.1, ?_⟩
    rw [hsame u (List.mem_cons_self ..)]
    exact ih h.2 fun v hv => hsame v (List.mem_cons_of_mem _ hv)

/-! ### Which links a step stores to -/

theorem next_store {w : Store ListHead} (h : next s t q = some (.store w, p)) :
    ∃ todo k, q = .stores (w :: todo) k := by
  cases q with
  | stores todo k =>
    cases todo with
    | nil => cases h
    | cons w' todo =>
      cases h
      exact ⟨todo, k, rfl⟩
  | prepareWarnPrev n | prepareWarnNext n =>
    simp only [next] at h
    split_ifs at h <;> cases h
  | wakeNext process curr => cases curr <;> cases h
  | _ => cases h

/-- How a task gets into a sequence of stores. -/
theorem next_stores {e : Effect} {w : Store ListHead} {todo : List (Store ListHead)} {k : Storing}
    (h : next s t q = some (e, .stores (w :: todo) k)) :
    (∃ w', q = .stores (w' :: w :: todo) k) ∨ q = .waitTest ∧ k = .defineWait ∨
      (∃ n, q = .prepareWarnNext n) ∧ k = .listAdd ∨ ∃ d prev, q = .deleteNext d prev := by
  cases q with
  | stores todo' k' =>
    cases todo' with
    | nil => rcases k' with _ | _ | (_ | _) <;> cases h
    | cons w' todo' =>
      cases h
      exact .inl ⟨w', rfl⟩
  | waitTest =>
    simp only [next] at h
    split_ifs at h <;> cases h
    exact .inr (.inl ⟨rfl, rfl⟩)
  | prepareWarnNext n =>
    cases h
    exact .inr (.inr (.inl ⟨⟨n, rfl⟩, rfl⟩))
  | deleteNext d prev => exact .inr (.inr (.inr ⟨d, prev, rfl⟩))
  | prepareEmpty | waitRetest | waitSignal | finishNext | finishPrev | sigActive
  | wakeFunc process curr next =>
    simp only [Queue.next] at h
    split_ifs at h <;> cases h
  | sigFirst | sigNext pos process =>
    simp only [next, sigLoop] at h
    split_ifs at h <;> cases h
  | wakeNext process curr => cases curr <;> cases h
  | _ => cases h

theorem step_links (h : step s x = some s') :
    s'.links = s.links ∨
    (∃ t w todo k, x = .run t ∧ s.pc t = .stores (w :: todo) k ∧ s'.links = s.links.store w) ∨
    ∃ t next prev, x = .reuse t next prev ∧ (s.pc t).framed = false ∧
      ∀ a, a ≠ .entry t → s'.links.Same s.links a := by
  cases x with
  | wait t | sig t | deliver t =>
    simp only [step] at h
    split at h <;> cases h
    exact .inl rfl
  | posix t =>
    cases h
    exact .inl rfl
  | reuse t next prev =>
    simp only [step] at h
    split at h
    · cases h
    · next hframe =>
      cases h
      refine .inr (.inr ⟨t, next, prev, rfl, by simpa using hframe, fun a ha => ?_⟩)
      exact ⟨Function.update_of_ne ha .., Function.update_of_ne ha ..⟩
  | run t =>
    obtain ⟨_, e, p, m, hnext, happly, rfl⟩ := run_eq_some h
    cases e with
    | store w =>
      cases happly
      obtain ⟨todo, k, hpc⟩ := next_store hnext
      exact .inr (.inl ⟨t, w, todo, k, rfl, hpc, rfl⟩)
    | lock =>
      obtain ⟨_, rfl⟩ := apply_lock happly
      exact .inl rfl
    | _ =>
      cases happly
      exact .inl rfl

/-- An entry whose frame is gone changes only by what its task does with its stack. -/
theorem Inv.links_dead (hi : Inv s l) (h : Queue.step s x = some s') (hu : (s.pc u).framed = false)
    (hx : ∀ next prev, x ≠ .reuse u next prev) : s'.links.Same s.links (.entry u) := by
  rcases step_links h with hl | ⟨t, w, todo, k, _, hpc, hl⟩ | ⟨t, next, prev, rfl, _, hl⟩
  · rw [hl]
    exact .rfl
  · rw [hl]
    refine Links.store_same fun hnode => ?_
    have hframed := hi.touches_framed (t := t) (u := u) (by rw [hpc]; rfl)
      (by rw [hpc]; exact List.mem_singleton.mpr hnode.symm)
    rw [hu] at hframed
    cases hframed
  · exact hl _ fun he => hx next prev (ListHead.entry.inj he ▸ rfl)

/-! ### A queue that only grows -/

/-- A task is about to take an entry off the queue. -/
def deletes (s : State) : Action → Bool
  | .run t =>
    match s.pc t with
    | .deleteNext _ _ => true
    | _ => false
  | _ => false

def NoDelete (s : State) (x : Action) : Prop := deletes s x = false

theorem NoDelete.ne {d : Delete} {prev : ListHead} (h : NoDelete s (.run t)) :
    s.pc t ≠ .deleteNext d prev := by
  intro hpc
  simp only [NoDelete, deletes, hpc] at h
  cases h

/-- No task is in the stores of `list_del_init`. -/
def Undisturbed (s : State) : Prop := ∀ t w todo d, s.pc t ≠ .stores (w :: todo) (.listDelInit d)

/-- The entry of `u` is on the queue, and its own links are made. -/
def Linked (s : State) (l : List Task) (u : Task) : Prop :=
  u ∈ l ∧ ∀ w todo, s.pc u ≠ .stores (w :: todo) .listAdd

theorem Undisturbed.step (hd : Undisturbed s) (hx : NoDelete s x) (h : Queue.step s x = some s') :
    Undisturbed s' := by
  intro t w todo d hpc
  by_cases hxt : x = .run t
  · subst hxt
    obtain ⟨_, e, p, m, hnext, happly, rfl⟩ := run_eq_some h
    rw [goto_self] at hpc
    subst hpc
    rcases next_stores hnext with ⟨w', hq⟩ | ⟨_, hk⟩ | ⟨_, hk⟩ | ⟨d', prev, hq⟩
    · exact hd t _ _ _ hq
    · cases hk
    · cases hk
    · exact hx.ne hq
  · rcases step_pc_cases h hxt with he | ⟨_, ⟨_, he⟩ | ⟨_, he⟩⟩
    · exact hd t w todo d (he.symm.trans hpc)
    · cases he.symm.trans hpc
    · cases he.symm.trans hpc

theorem Linked.step (hi : Inv s l) (hu : Linked s l u) (hx : NoDelete s x)
    (h : Queue.step s x = some s') : Linked s' (queueStep s l x) u := by
  refine ⟨?_, ?_⟩
  · cases x with
    | run t =>
      have hnot : ∀ d prev, s.pc t ≠ .deleteNext d prev := fun _ _ => hx.ne
      simp only [queueStep]
      generalize s.pc t = q at hnot
      cases q with
      | prepareWarnNext n => exact List.mem_cons_of_mem _ hu.1
      | deleteNext d prev => exact absurd rfl (hnot d prev)
      | _ => exact hu.1
    | _ => exact hu.1
  · intro w todo hpc
    by_cases hxu : x = .run u
    · subst hxu
      obtain ⟨_, e, p, m, hnext, happly, rfl⟩ := run_eq_some h
      rw [goto_self] at hpc
      subst hpc
      rcases next_stores hnext with ⟨w', hq⟩ | ⟨_, hk⟩ | ⟨⟨n, hq⟩, _⟩ | ⟨d, prev, hq⟩
      · exact hu.2 _ _ hq
      · cases hk
      · exact hi.absent (by rw [hq]; rfl) hu.1
      · exact hx.ne hq
    · rcases step_pc_cases h hxu with he | ⟨_, ⟨_, he⟩ | ⟨_, he⟩⟩
      · exact hu.2 w todo (he.symm.trans hpc)
      · cases he.symm.trans hpc
      · cases he.symm.trans hpc

/-- While nothing is taken off, the way on from an entry stays the same. -/
theorem Linked.next_eq (hi : Inv s l) (hd : Undisturbed s) (hu : Linked s l u)
    (h : Queue.step s x = some s') : s'.links.next (.entry u) = s.links.next (.entry u) := by
  rcases step_links h with hl | ⟨t, w, todo, k, _, hpc, hl⟩ | ⟨t, next, prev, _, hf, hl⟩
  · rw [hl]
  · rw [hl]
    cases k with
    | listDelInit d => exact absurd hpc (hd t w todo d)
    | defineWait =>
      have hfresh := hi.fresh t
      rw [hpc] at hfresh
      refine (Links.store_same fun hnode => ?_).1
      have htu := ListHead.entry.inj ((hfresh.1 w (List.mem_cons_self ..)).symm.trans hnode)
      exact (hi.fresh_apart ⟨_, hpc⟩).1 (htu ▸ hu.1)
    | listAdd =>
      have hok := hi.holder t ((hi.lock t).mpr (by rw [hpc]; rfl))
      rw [hpc] at hok
      cases w with
      | prev a b => rfl
      | next a b =>
        refine Function.update_of_ne (fun ha => ?_) ..
        have hut := hok.2 _ (List.mem_cons_self ..) u b (by rw [ha])
        exact hu.2 _ _ (hut ▸ hpc)
  · refine (hl _ fun he => ?_).1
    rw [← ListHead.entry.inj he, hi.framed hu.1] at hf
    cases hf

/-! ### The count -/

/-- Of `total` entries the loop has passed `n`, and the others are before it. -/
def Counted (total : ℕ) (t : Task) (n : ℕ) (s : State) : Prop :=
  ∃ l pos rest, Inv s l ∧ Undisturbed s ∧ s.pc t = sigLoop pos n ∧ Forward s.links pos rest ∧
    n + rest.length = total ∧ ∀ u ∈ rest, Linked s l u

theorem Counted.other {total n : ℕ} (hc : Counted total t n s) (hx : NoDelete s x)
    (h : Queue.step s x = some s') (hxt : x ≠ .run t) : Counted total t n s' := by
  obtain ⟨l, pos, rest, hi, hd, hpc, hf, htotal, hrest⟩ := hc
  have huser : s.pc t ≠ .user := by
    rw [hpc, sigLoop]
    split_ifs <;> exact fun he => by cases he
  exact ⟨_, pos, rest, hi.step h, hd.step hx h, (step_pc h hxt huser).trans hpc,
    hf.congr fun u hu => (hrest u hu).next_eq hi hd h, htotal, fun u hu => (hrest u hu).step hi hx h⟩

theorem Counted.own {total n : ℕ} (hc : Counted total t n s) (hn : n < total)
    (h : Queue.step s (.run t) = some s') : Counted total t (n + 1) s' := by
  obtain ⟨l, pos, rest, hi, hd, hpc, hf, htotal, hrest⟩ := hc
  cases rest with
  | nil =>
    rw [List.length_nil] at htotal
    omega
  | cons u rest =>
    obtain ⟨rfl, hf⟩ := hf
    have hpc' : s.pc t = .sigNext (.entry u) (n + 1) := hpc
    have hx : NoDelete s (.run t) := by simp [NoDelete, deletes, hpc']
    have hi' := hi.step h
    have hd' := hd.step hx h
    have hrest' := fun v hv => (hrest v (List.mem_cons_of_mem _ hv)).step hi hx h
    obtain ⟨_, e, p, m, hnext, happly, rfl⟩ := run_eq_some h
    rw [hpc'] at hnext
    cases hnext
    cases happly
    refine ⟨_, _, rest, hi', hd', goto_self .., hf, ?_, hrest'⟩
    rw [List.length_cons] at htotal
    omega

theorem Counted.run {total n : ℕ} {ys : List Action} (h : Run Queue.step NoDelete s ys s')
    (hc : Counted total t n s) (hn : n + ys.count (.run t) ≤ total) :
    Counted total t (n + ys.count (.run t)) s' := by
  induction h generalizing n with
  | nil s => exact hc
  | @cons s m s' x ys hx hstep _ ih =>
    by_cases hxt : x = .run t
    · subst hxt
      rw [List.count_cons_self] at hn ⊢
      have hm := ih (hc.own (by omega) hstep) (by omega)
      rwa [Nat.add_assoc, Nat.add_comm 1] at hm
    · rw [List.count_cons_of_ne hxt] at hn ⊢
      exact ih (hc.other hx hstep hxt) hn

/-- No store is pending: neither an addition nor a deletion is under way. -/
theorem Inv.settled_tasks (hi : Inv s l) (htodo : s.todo = []) :
    Undisturbed s ∧ ∀ u ∈ l, Linked s l u := by
  have hnone : ∀ t w todo k, (Pc.stores (w :: todo) k).locked = true → s.pc t ≠ .stores (w :: todo) k := by
    intro t w todo k hk hpc
    rw [todo_of_lock ((hi.lock t).mpr (hpc ▸ hk)), hpc, todo_stores hk] at htodo
    cases htodo
  exact ⟨fun t w todo d => hnone t w todo _ rfl, fun u hu => ⟨hu, fun w todo => hnone u w todo _ rfl⟩⟩

theorem Counted.begin (hi : Inv s l) (ht : s.pc t = .sigFirst) (htodo : s.todo = [])
    (hl : s.links.Ring .taskList (l.map .entry)) (h : Queue.step s (.run t) = some s') :
    Counted l.length t 0 s' := by
  obtain ⟨hd, hlinked⟩ := hi.settled_tasks htodo
  have hx : NoDelete s (.run t) := by simp [NoDelete, deletes, ht]
  have hi' := hi.step h
  have hd' := hd.step hx h
  have hlinked' := fun u hu => (hlinked u hu).step hi hx h
  obtain ⟨_, e, p, m, hnext, happly, rfl⟩ := run_eq_some h
  rw [ht] at hnext
  cases hnext
  cases happly
  exact ⟨_, _, l, hi', hd', goto_self .., Forward.of_ring hl, Nat.zero_add _, hlinked'⟩

end

/-- The count of a signaller that makes its first load while no link store is pending, and
during whose loop no entry is taken off the queue, whatever else the other tasks do: as many
steps as there were entries at that load bring it to the end of the loop, with that number. -/
theorem count_of_growing_queue (links : Links ListHead) (xs ys : List Action) (s s' : State) (t : Task)
    (l : List Task) (hs : Steps (init links) xs s) (ht : s.pc t = .sigFirst) (htodo : s.todo = [])
    (hl : s.links.Ring .taskList (l.map .entry)) (h : Run step NoDelete s (.run t :: ys) s')
    (hn : ys.count (.run t) = l.length) : s'.pc t = .sigCondition l.length := by
  obtain ⟨l₀, hi⟩ := Inv.reachable hs
  have hring := hi.ring
  rw [State.settled, htodo] at hring
  have hl₀ : l₀ = l := List.map_injective_iff.mpr (fun a b h => ListHead.entry.inj h) (hring.unique hl)
  subst hl₀
  cases h with
  | cons hx hstep hrest =>
    obtain ⟨_, pos, rest, _, _, hpc, hf, htotal, _⟩ :=
      (Counted.begin hi ht htodo hl hstep).run hrest (by omega)
    cases rest with
    | nil =>
      have hpos : pos = .taskList := hf
      rw [hpc, hpos, sigLoop, if_pos rfl, hn, Nat.zero_add]
    | cons u rest =>
      rw [List.length_cons] at htotal
      omega

/-- Task 2 puts its entry on the queue while task 3 counts. -/
theorem count_of_growing_queue_added :
    ∃ s s', Steps (init blank) (sleeps 1 ++ .wait 2 :: runs 2 8 ++ .sig 3 :: runs 3 1) s ∧
      Run step NoDelete s (.run 3 :: (runs 2 12 ++ runs 3 1)) s' ∧
      (s'.sched 2).onRq = false ∧ s'.pc 3 = .sigCondition 1 := by
  have hsteps : ((steps step (fun _ _ => true) (init blank)
      (sleeps 1 ++ .wait 2 :: runs 2 8 ++ .sig 3 :: runs 3 1)).map fun s =>
        s.pc 3 == .sigFirst && s.todo == [] &&
        (s.links.next .taskList == .entry 1 && s.links.prev (.entry 1) == .taskList) &&
        (s.links.next (.entry 1) == .taskList && s.links.prev .taskList == .entry 1) &&
        (steps step (fun s x => !deletes s x) s (.run 3 :: (runs 2 12 ++ runs 3 1))).map (fun s' =>
          !(s'.sched 2).onRq) == some true) = some true := by
    decide +kernel
  obtain ⟨s, hs, ht⟩ := Option.map_eq_some_iff.mp hsteps
  simp only [Bool.and_eq_true, beq_iff_eq] at ht
  obtain ⟨⟨⟨⟨hpc, htodo⟩, hfirst⟩, hlast⟩, hrest⟩ := ht
  have hring : s.links.Ring .taskList (List.map .entry [1]) :=
    ⟨List.isChain_cons_cons.mpr ⟨hfirst, List.isChain_pair.mpr hlast⟩, by decide⟩
  obtain ⟨s', hs', hoff⟩ := Option.map_eq_some_iff.mp hrest
  have hr : Steps (init blank) (sleeps 1 ++ .wait 2 :: runs 2 8 ++ .sig 3 :: runs 3 1) s :=
    .of_steps (fun _ _ => true) hs fun _ _ _ => trivial
  have hr' : Run step NoDelete s (.run 3 :: (runs 2 12 ++ runs 3 1)) s' :=
    .of_steps _ hs' fun _ _ h => by simpa [NoDelete] using h
  exact ⟨s, s', hr, hr', by simpa using hoff, count_of_growing_queue blank _ _ s s' 3 [1] hr hpc htodo
    hring hr' (by decide)⟩

/-! ### A count that does not end -/

/-- The task `u` makes no new wait, and its stack is not used where the entry was. -/
def Leaves (u : Task) (x : Action) : Prop := x ≠ .wait u ∧ ∀ next prev, x ≠ .reuse u next prev

/-- In a wait, from its first statement on. -/
def Pc.waits (p : Pc) : Bool := p.framed || p == .waitReset || p == .waitTest

section
variable {s s' : State} {l : List Task} {t u : Task} {x : Action} {p q : Pc}

theorem next_waits {e : Effect} (h : next s t q = some (e, p)) (hq : q.waits = false) :
    p.waits = false := by
  cases q with
  | stores todo k =>
    rcases k with _ | _ | (_ | _) <;> try cases hq
    cases todo <;> cases h <;> rfl
  | deletePrev d | deleteNext d prev => cases d <;> cases h <;> first | rfl | cases hq
  | sigActive | wakeFunc process curr next =>
    simp only [Queue.next] at h
    split_ifs at h <;> cases h <;> rfl
  | sigFirst | sigNext pos process =>
    simp only [next, sigLoop] at h
    split_ifs at h <;> cases h <;> rfl
  | wakeNext process curr => cases curr <;> cases h <;> rfl
  | user => cases h
  | ret r | sigCondition process | wakeLock process | wakeFirst process | wakeUnlock process =>
    cases h
    rfl
  | _ => cases hq

/-- The cursor of `t` is on an entry that is closed on itself, and whose frame is gone. How
far the count is does not matter. -/
def Stuck (t u : Task) (s : State) : Prop :=
  ∃ l process, Inv s l ∧ s.pc t = .sigNext (.entry u) process ∧ (s.pc u).waits = false ∧
    s.links.next (.entry u) = .entry u

theorem Stuck.step (hk : Stuck t u s) (hx : Leaves u x) (h : Queue.step s x = some s') :
    Stuck t u s' := by
  obtain ⟨l, process, hi, ht, hu, hself⟩ := hk
  have hframed : (s.pc u).framed = false := by
    simp only [Pc.waits, Bool.or_eq_false_iff] at hu
    exact hu.1.1
  have hlinks := (hi.links_dead h hframed hx.2).1
  have hcursor : ∃ process', s'.pc t = .sigNext (.entry u) process' := by
    by_cases hxt : x = .run t
    · subst hxt
      obtain ⟨_, e, p, m, hnext, happly, rfl⟩ := run_eq_some h
      rw [ht] at hnext
      cases hnext
      rw [goto_self, hself, sigLoop, if_neg (fun he => by cases he)]
      exact ⟨_, rfl⟩
    · rw [step_pc h hxt (by rw [ht]; exact fun he => by cases he), ht]
      exact ⟨_, rfl⟩
  obtain ⟨process', ht'⟩ := hcursor
  refine ⟨_, process', hi.step h, ht', ?_, hlinks.trans hself⟩
  by_cases hxu : x = .run u
  · subst hxu
    obtain ⟨_, e, p, m, hnext, happly, rfl⟩ := run_eq_some h
    rw [goto_self]
    exact next_waits hnext hu
  · rcases step_pc_cases h hxu with he | ⟨_, ⟨hw, _⟩ | ⟨_, he⟩⟩
    · rw [he]
      exact hu
    · exact absurd hw hx.1
    · rw [he]
      rfl

theorem Stuck.run {ys : List Action} (h : Run Queue.step (fun _ x => Leaves u x) s ys s')
    (hk : Stuck t u s) : Stuck t u s' :=
  h.invariant (Stuck t u) hk fun _ _ _ hk hx hstep => hk.step hx hstep

end

/-- Once the wait whose entry the cursor is on has returned, the count does not end, however
long it runs, as long as that task makes no new wait and its stack keeps what was there. -/
theorem count_never_ends (links : Links ListHead) (xs ys : List Action) (s s' : State) (t u : Task)
    (n : ℕ) (hs : Steps (init links) xs s) (ht : s.pc t = .sigNext (.entry u) n)
    (hu : s.pc u = .user) (hself : s.links.next (.entry u) = .entry u)
    (h : Run step (fun _ x => Leaves u x) s ys s') :
    ∃ process, s'.pc t = .sigNext (.entry u) process := by
  obtain ⟨l, hi⟩ := Inv.reachable hs
  have hk : Stuck t u s := ⟨l, n, hi, ht, by rw [hu]; rfl, hself⟩
  obtain ⟨_, process, _, hpc, _⟩ := hk.run h
  exact ⟨process, hpc⟩

/-- A POSIX signal ends the wait of task 1 while the cursor of task 2 is on its entry. -/
theorem count_never_ends_signalled :
    ∃ s, Steps (init blank) (sleeps 1 ++ .sig 2 :: runs 2 2 ++ .posix 1 :: runs 1 19) s ∧
      ∀ ys s', Run step (fun _ x => Leaves 1 x) s ys s' →
        ∃ process, s'.pc 2 = .sigNext (.entry 1) process := by
  obtain ⟨s, hr, ht⟩ : ∃ s, Steps (init blank)
      (sleeps 1 ++ .sig 2 :: runs 2 2 ++ .posix 1 :: runs 1 19) s ∧
      (s.pc 2 == .sigNext (.entry 1) 1 && s.pc 1 == .user &&
        s.links.next (.entry 1) == .entry 1) = true :=
    Run.of_test (fun _ _ => true) _ (by decide +kernel) fun _ _ _ => trivial
  simp only [Bool.and_eq_true, beq_iff_eq] at ht
  exact ⟨s, hr, fun ys s' h => count_never_ends blank _ ys s s' 2 1 1 hr ht.1.1 ht.1.2 ht.2 h⟩

end DoEvent.Queue
