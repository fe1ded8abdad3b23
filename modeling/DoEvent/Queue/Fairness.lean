import DoEvent.Queue.WakeLoop
import DoEvent.Transition.Simulation
import DoEvent.Queue.Ticket

/-!
# The tickets implement the queue lock, first come first served

The word is tied to the line of the tasks that have a number: first the holder, if there is
one, then the waiting tasks in the order of their `xaddw`. A number is served exactly when its
task is first in the line, so a step that leaves the loop is a step that takes the abstract
lock, and the lock goes to the tasks in the order of their numbers.
-/

namespace DoEvent.Queue.Ticket

open Shared Transition

/-- The number of a task in the line. The holder has no use for its register; its number is
the one that is served. -/
def State.ticket (s : State) (t : Task) : BitVec 8 := (s.inc t).elim s.slock.low Word.high

/-- The holder of the lock, then those who wait for it. -/
structure Tied (s : State) (k : Option Task) (w : List Task) : Prop where
  line : Line s.ticket s.slock.low (k.toList ++ w) s.slock.high
  nodup : (k.toList ++ w).Nodup
  waits : ∀ t, t ∈ w ↔ s.inc t ≠ none
  asks : ∀ t, s.inc t ≠ none → asksLock (s.pc t) = true

/-- Not an instruction with which the task fails to get the lock. -/
def succeeds (s : State) : Action → Bool
  | .run t => !asksLock (s.pc t) || served (ticketSpinLock s.slock (s.inc t)).2
  | _ => true

def isRun : Action → Bool
  | .run _ => true
  | _ => false

/-- Whose `xaddw` a step is. -/
def arrivals (s : State) : Action → List Task
  | .run t => if asksLock (s.pc t) && (s.inc t).isNone then [t] else []
  | _ => []

/-- Who gets the lock in a step. -/
def grants (s : State) : Action → List Task
  | .run t => if asksLock (s.pc t) && served (ticketSpinLock s.slock (s.inc t)).2 then [t] else []
  | _ => []

section
variable {s s' : State} {k : Option Task} {w l : List Task} {t u : Task} {p : Pc} {n : ℕ}
  {x : Action} {v : Word} {m : Queue.State}

theorem ticket_of_none (h : s.inc t = none) : s.ticket t = s.slock.low := by
  rw [State.ticket, h]
  rfl

theorem ticket_of_some (h : s.inc t = some v) : s.ticket t = v.high := by
  rw [State.ticket, h]
  rfl

theorem Tied.init (links : Links ListHead) : Tied (init links) none [] where
  line := (rfl : Word.high 0 = Word.low 0)
  nodup := List.nodup_nil
  waits _ := by simp [Ticket.init]
  asks _ h := absurd rfl h

/-- The task that has the lock is not on its way to it. -/
theorem Tied.holder_inc (h : Tied s k w) (hi : Inv (s.withLock k) l) (hk : k = some t) :
    s.inc t = none := by
  by_contra hinc
  have hlocked : (s.pc t).locked = true := (hi.lock t).mp hk
  rw [locked_of_asksLock (h.asks t hinc)] at hlocked
  cases hlocked

theorem Tied.mem_line (h : Tied s k w) (hi : Inv (s.withLock k) l) :
    t ∈ k.toList ++ w ↔ s.Busy t := by
  rw [List.mem_append, Option.mem_toList, h.waits, State.Busy]
  exact or_congr (hi.lock t) Iff.rfl

/-- No more tasks are in the line than there are CPUs. -/
theorem Tied.length_le (h : Tied s k w) (hi : Inv (s.withLock k) l) (hok : OnCpus n s x) :
    (k.toList ++ w).length ≤ n ∧
      (x.task ∉ k.toList ++ w → (k.toList ++ w).length < n) := by
  obtain ⟨F, hcard, hmem, hbusy⟩ := hok
  have hsub : (k.toList ++ w).toFinset ⊆ F := fun u hu =>
    hbusy u ((h.mem_line hi).mp (List.mem_toFinset.mp hu))
  have hline := List.toFinset_card_of_nodup h.nodup
  refine ⟨?_, fun hx => ?_⟩
  · rw [← hline]
    exact (Finset.card_le_card hsub).trans hcard
  · have hlt : (k.toList ++ w).toFinset.card < F.card := Finset.card_lt_card
      ⟨hsub, fun hF => hx (List.mem_toFinset.mp (hF hmem))⟩
    omega

/-! ### Instructions of the lock -/

/-- The `xaddw` of a task that finds nobody in the line. -/
theorem Tied.enter_first (h : Tied s none []) (hinc : s.inc t = none) :
    served s.slock = true ∧ Tied (s.spin t p (xaddw s.slock).1 s.slock) (some t) [] := by
  have hfree : s.slock.high = s.slock.low := h.line
  have hserved : served s.slock = true := (served_iff _).mpr hfree
  have hsame : Function.update s.inc t none = s.inc := by rw [← hinc, Function.update_eq_self]
  have hnone : ∀ u, s.inc u = none := by
    intro u
    by_contra hu
    cases (h.waits u).mpr hu
  refine ⟨hserved, ?_⟩
  rw [spin_served hserved, hsame]
  refine ⟨⟨ticket_of_none hinc, ?_⟩, List.nodup_singleton t, h.waits, ?_⟩
  · rw [xaddw_high, xaddw_low, hfree]
    rfl
  · exact fun u hu => absurd (hnone u) hu

/-- The `xaddw` of a task that finds others in the line. -/
theorem Tied.enter_behind (h : Tied s k w) (hask : asksLock (s.pc t) = true)
    (hmem : t ∉ k.toList ++ w) (hline : k.toList ++ w ≠ []) (hlen : (k.toList ++ w).length < 256) :
    served s.slock = false ∧ Tied (s.spin t p (xaddw s.slock).1 s.slock) k (w ++ [t]) := by
  have hserved : served s.slock = false := (not_served_iff _).mpr (h.line.tail_ne hline hlen)
  refine ⟨hserved, ?_⟩
  rw [spin_waiting hserved]
  refine ⟨?_, ?_, ?_, ?_⟩
  · rw [xaddw_low, xaddw_high, ← List.append_assoc]
    refine (h.line.congr ?_).join ?_
    · intro u hu
      have hut : u ≠ t := fun he => hmem (he ▸ hu)
      simp [State.ticket, Function.update_of_ne hut, xaddw_low]
    · simp [State.ticket, xaddw]
  · rw [← List.append_assoc]
    exact h.nodup.append (List.nodup_singleton t) (by simpa using hmem)
  · intro u
    by_cases hut : u = t
    · simp [hut]
    · simpa [hut] using h.waits u
  · intro u hu
    by_cases hut : u = t
    · rwa [hut]
    · exact h.asks u (by simpa [hut] using hu)

/-- The load of a task that is first in the line. -/
theorem Tied.load_first (h : Tied s none (t :: w)) (hinc : s.inc t = some v) :
    served (movb s.slock v) = true ∧
      Tied (s.spin t p s.slock (movb s.slock v)) (some t) w := by
  have hticket := h.line.1
  rw [ticket_of_some hinc] at hticket
  have hserved := (served_movb ..).mpr hticket
  refine ⟨hserved, ?_⟩
  rw [spin_served hserved]
  have hnodup : t ∉ w ∧ w.Nodup := List.nodup_cons.mp h.nodup
  refine ⟨h.line.congr ?_, h.nodup, ?_, ?_⟩
  · intro u hu
    by_cases hut : u = t
    · rw [hut, ticket_of_some hinc, hticket]
      simp [State.ticket]
    · simp [State.ticket, Function.update_of_ne hut]
  · intro u
    have hu := h.waits u
    by_cases hut : u = t
    · simpa [hut] using hnodup.1
    · simpa [hut] using hu
  · intro u hu
    by_cases hut : u = t
    · simp [hut] at hu
    · simpa [hut] using h.asks u (by simpa [hut] using hu)

/-- The load of a task that is not. -/
theorem Tied.load_behind (h : Tied s k w) (hinc : s.inc t = some v)
    (hlen : (k.toList ++ w).length ≤ 256) (hfirst : (k.toList ++ w).head? ≠ some t) :
    served (movb s.slock v) = false ∧ Tied (s.spin t p s.slock (movb s.slock v)) k w := by
  have hmem : t ∈ w := (h.waits t).mpr (by simp [hinc])
  have hticket : v.high ≠ s.slock.low := by
    rw [← ticket_of_some hinc]
    exact fun he => hfirst ((h.line.served_iff hlen (List.mem_append_right _ hmem)).mp he)
  have hserved : served (movb s.slock v) = false := by
    rw [Bool.eq_false_iff]
    exact fun he => hticket ((served_movb ..).mp he)
  refine ⟨hserved, ?_⟩
  rw [spin_waiting hserved]
  refine ⟨h.line.congr ?_, h.nodup, ?_, ?_⟩
  · intro u _
    by_cases hut : u = t
    · rw [hut, ticket_of_some hinc]
      simp [State.ticket, movb, append_high]
    · simp [State.ticket, Function.update_of_ne hut]
  · intro u
    by_cases hut : u = t
    · simpa [hut] using hmem
    · simpa [hut] using h.waits u
  · intro u hu
    by_cases hut : u = t
    · rw [hut]
      exact h.asks t (by simp [hinc])
    · exact h.asks u (by simpa [hut] using hu)

theorem Tied.unlock (h : Tied s (some t) w) (hinc : s.inc t = none) :
    Tied (s.unlock t p) none w := by
  have hnodup : t ∉ w ∧ w.Nodup := List.nodup_cons.mp h.nodup
  have hlow : (ticketSpinUnlock s.slock).low = s.slock.low + 1 := append_low ..
  have hhigh : (ticketSpinUnlock s.slock).high = s.slock.high := append_high ..
  refine ⟨?_, hnodup.2, h.waits, ?_⟩
  · have hline : Line s.ticket (s.slock.low + 1) w s.slock.high := h.line.2
    rw [State.unlock, hlow, hhigh]
    refine hline.congr fun u hu => ?_
    obtain ⟨v, hv⟩ := Option.ne_none_iff_exists'.mp ((h.waits u).mp hu)
    rw [ticket_of_some hv]
    exact ticket_of_some hv
  · intro u hu
    have hut : u ≠ t := fun he => hu (he ▸ hinc)
    simpa [State.unlock, hut] using h.asks u hu

/-- One instruction on the way to the lock. -/
theorem Tied.spin (h : Tied s k w) (hi : Inv (s.withLock k) l) (hok : OnCpus n s (.run t))
    (hn : n ≤ 256) (hask : asksLock (s.pc t) = true) {r : Word × Word}
    (hr : ticketSpinLock s.slock (s.inc t) = r) :
    (served r.2 = true ∧ k = none ∧ ∃ w', Tied (s.spin t p r.1 r.2) (some t) w' ∧
      w ++ arrivals s (.run t) = t :: w') ∨
    (served r.2 = false ∧ Tied (s.spin t p r.1 r.2) k (w ++ arrivals s (.run t))) := by
  obtain ⟨hle, hlt⟩ := h.length_le hi hok
  subst hr
  cases hinc : s.inc t with
  | none =>
    have harrive : arrivals s (.run t) = [t] := by simp [arrivals, hask, hinc]
    have hmem : t ∉ k.toList ++ w := by
      rw [h.mem_line hi, State.Busy, hinc, locked_of_asksLock hask]
      simp
    rw [harrive]
    by_cases hline : k.toList ++ w = []
    · obtain ⟨hk, rfl⟩ := List.append_eq_nil_iff.mp hline
      have hfree : k = none := Option.toList_eq_nil_iff.mp hk
      subst hfree
      obtain ⟨hserved, htied⟩ := h.enter_first (p := p) hinc
      exact .inl ⟨hserved, rfl, [], htied, rfl⟩
    · have hlen : (k.toList ++ w).length < 256 := Nat.lt_of_lt_of_le (hlt hmem) hn
      exact .inr (h.enter_behind hask hmem hline hlen)
  | some v =>
    have harrive : arrivals s (.run t) = [] := by simp [arrivals, hinc]
    rw [harrive, List.append_nil]
    by_cases hfirst : (k.toList ++ w).head? = some t
    · cases k with
      | some u =>
        have hut : u = t := Option.some.inj hfirst
        have hnone := h.holder_inc hi (congrArg some hut)
        rw [hinc] at hnone
        cases hnone
      | none =>
        cases w with
        | nil => cases hfirst
        | cons u w =>
          have hut : u = t := Option.some.inj hfirst
          subst hut
          obtain ⟨hserved, htied⟩ := h.load_first (p := p) hinc
          exact .inl ⟨hserved, rfl, w, htied, rfl⟩
    · exact .inr (h.load_behind hinc (hle.trans hn) hfirst)

/-! ### Steps -/

/-- A step that leaves the word alone: the line stays as it is. -/
theorem Tied.of_same (h : Tied s k w) (hslock : s'.slock = s.slock) (hinc : s'.inc = s.inc)
    (hpc : ∀ u, s.inc u ≠ none → s'.pc u = s.pc u) : Tied s' k w := by
  have hticket : s'.ticket = s.ticket := by
    funext u
    rw [State.ticket, State.ticket, hinc, hslock]
  refine ⟨?_, h.nodup, ?_, ?_⟩
  · rw [hticket, hslock]
    exact h.line
  · rw [hinc]
    exact h.waits
  · intro u hu
    rw [hinc] at hu
    rw [hpc u hu]
    exact h.asks u hu

theorem step_withLock (hx : ∀ t, x ≠ .run t) :
    Queue.step (s.withLock k) x =
      (Queue.step (s.withLock none) x).map fun m => { m with lock := k } := by
  cases x with
  | run t => exact absurd rfl (hx t)
  | posix t => rfl
  | wait t | sig t | deliver t =>
    by_cases hpc : s.pc t = .user <;>
      simp [Queue.step, State.withLock, hpc, Queue.State.goto, Queue.State.setSched]
  | reuse t next prev => by_cases hf : (s.pc t).framed <;> simp [Queue.step, State.withLock, hf]

theorem queue_run (hrq : (s.sched t).onRq = true) {e : Effect}
    (hnext : Queue.next (s.withLock none) t (s.pc t) = some (e, p))
    (happly : Queue.apply (s.withLock k) t e = some m) :
    Queue.step (s.withLock k) (.run t) = some (m.goto t p) := by
  have hnext' : Queue.next (s.withLock k) t (s.pc t) = some (e, p) := next_withLock.trans hnext
  have hrq' : ((s.withLock k).sched t).onRq = true := hrq
  have hpc : (s.withLock k).pc t = s.pc t := rfl
  rw [Queue.step, if_pos hrq', hpc, hnext', Option.bind_some, happly, Option.map_some]

/-- A step of a task that is not on its way to the lock. -/
theorem Tied.run_other (h : Tied s k w) (hi : Inv (s.withLock k) l) (hrq : (s.sched t).onRq = true)
    (hask : asksLock (s.pc t) = false) {e : Effect}
    (hnext : Queue.next (s.withLock none) t (s.pc t) = some (e, p))
    (hex : execute s t p e = some s') :
    ∃ k', Queue.step (s.withLock k) (.run t) = some (s'.withLock k') ∧ Tied s' k' w := by
  have hinc : s.inc t = none := by
    by_contra hne
    rw [h.asks t hne] at hask
    cases hask
  by_cases hlock : effectLocks e = true
  · cases e with
    | lock =>
      rw [next_lock hnext] at hask
      cases hask
    | unlock =>
      have hk : k = some t := (hi.lock t).mpr (next_unlock hnext)
      subst hk
      cases hex
      exact ⟨none, queue_run hrq hnext rfl, h.unlock hinc⟩
    | _ => cases hlock
  · have heff : effectLocks e = false := by simpa using hlock
    have hcalls : (Queue.apply (s.withLock none) t e).map (fun m => s.ofQueue (m.goto t p)) = some s' := by
      cases e with
      | lock | unlock => cases heff
      | _ => exact hex
    obtain ⟨m, happly, rfl⟩ := Option.map_eq_some_iff.mp hcalls
    have happly' : Queue.apply (s.withLock k) t e = some { m with lock := k } := by
      rw [apply_withLock heff, happly, Option.map_some]
    refine ⟨k, queue_run hrq hnext happly', h.of_same rfl rfl ?_⟩
    intro u hu
    have hut : u ≠ t := fun he => hu (he ▸ hinc)
    exact (goto_of_ne m p hut).trans (congrFun (apply_pc happly) u)

/-- Leaving out the instructions that fail gives steps over the abstract lock, and the
waiting tasks are served in turn. -/
theorem Tied.simulates (h : Tied s k w) (hi : Inv (s.withLock k) l) (hok : OnCpus n s x)
    (hn : n ≤ 256) (hst : step s x = some s') :
    ∃ k' w', Steps (s.withLock k) (kept succeeds s x) (s'.withLock k') ∧ Tied s' k' w' ∧
      w ++ arrivals s x = grants s x ++ w' := by
  by_cases hx : ∃ t, x = .run t
  · obtain ⟨t, rfl⟩ := hx
    simp only [step] at hst
    split at hst
    next hrq =>
      obtain ⟨⟨e, p⟩, hnext, hex⟩ := Option.bind_eq_some_iff.mp hst
      cases hask : asksLock (s.pc t) with
      | true =>
        have he := next_of_asksLock hask hnext
        subst he
        cases hex
        rcases h.spin (p := p) hi hok hn hask rfl with ⟨hserved, rfl, w', htied, hw⟩ | ⟨hwait, htied⟩
        · have hkeep : kept succeeds s (.run t) = [.run t] :=
            kept_of_true (by simp [succeeds, hserved])
          have hgrant : grants s (.run t) = [t] := by simp [grants, hask, hserved]
          refine ⟨some t, w', ?_, htied, by rw [hw, hgrant]; rfl⟩
          have hlock : Queue.apply (s.withLock none) t .lock = some (s.withLock (some t)) := rfl
          rw [hkeep, spin_served hserved]
          exact .single trivial (queue_run hrq hnext hlock)
        · have hkeep : kept succeeds s (.run t) = [] :=
            kept_of_false (by simp [succeeds, hask, hwait])
          have hgrant : grants s (.run t) = [] := by simp [grants, hwait]
          refine ⟨k, _, ?_, htied, by rw [hgrant]; rfl⟩
          rw [hkeep, spin_waiting hwait]
          exact .nil _
      | false =>
        obtain ⟨k', hq, htied⟩ := h.run_other hi hrq hask hnext hex
        have hkeep : kept succeeds s (.run t) = [.run t] := kept_of_true (by simp [succeeds, hask])
        refine ⟨k', w, ?_, htied, by simp [arrivals, grants, hask]⟩
        rw [hkeep]
        exact .single trivial hq
    next => cases hst
  · have hrun : ∀ t, x ≠ .run t := fun t he => hx ⟨t, he⟩
    have hnotes : arrivals s x = [] ∧ grants s x = [] ∧ succeeds s x = true := by
      cases x with
      | run t => exact absurd rfl (hrun t)
      | _ => exact ⟨rfl, rfl, rfl⟩
    have hq : (Queue.step (s.withLock none) x).map s.ofQueue = some s' := by
      cases x with
      | run t => exact absurd rfl (hrun t)
      | _ => exact hst
    obtain ⟨m, hm, rfl⟩ := Option.map_eq_some_iff.mp hq
    refine ⟨k, w, ?_, h.of_same rfl rfl fun u hu => ?_, by rw [hnotes.1, hnotes.2.1]; simp⟩
    · rw [kept_of_true hnotes.2.2]
      refine .single trivial ?_
      rw [step_withLock hrun, hm]
      rfl
    · refine step_pc hm (hrun u) fun huser => ?_
      have hask := h.asks u hu
      rw [show s.pc u = .user from huser] at hask
      cases hask

/-! ### Runs -/

/-- The line of a state. -/
def Lined (s : State) (w : List Task) : Prop := ∃ k l, Tied s k w ∧ Inv (s.withLock k) l

theorem Lined.init (links : Links ListHead) : Lined (init links) [] :=
  ⟨none, [], Tied.init links, Inv.init links⟩

/-- Who has come and who has been served along a run. -/
theorem Lined.run (h : Lined s w) (hn : n ≤ 256) {xs : List Action}
    (hrun : Run step (OnCpus n) s xs s') :
    ∃ w', Lined s' w' ∧ w ++ observe step arrivals s xs = observe step grants s xs ++ w' := by
  have hnotes := hrun.observed_two arrivals grants
    (fun come gone s => ∃ w', Lined s w' ∧ w ++ come = gone ++ w') (l := []) []
    ⟨w, h, List.append_nil w⟩ ?_
  · simpa using hnotes
  · rintro come gone s x s' ⟨w', ⟨k, l, htied, hi⟩, hw⟩ hok hst
    obtain ⟨k', w'', hsteps, htied', hturn⟩ := htied.simulates hi hok hn hst
    obtain ⟨l', hi'⟩ := hi.run hsteps
    refine ⟨w'', ⟨k', l', htied', hi'⟩, ?_⟩
    rw [← List.append_assoc, hw, List.append_assoc, hturn, List.append_assoc]

theorem steps_run (links : Links ListHead) (hn : n ≤ 256) {xs : List Action}
    (hrun : Run step (OnCpus n) (Ticket.init links) xs s) :
    ∃ k w l, Steps (Queue.init links) (observe step (kept succeeds) (Ticket.init links) xs)
      (s.withLock k) ∧ Tied s k w ∧ Inv (s.withLock k) l := by
  refine hrun.observed (kept succeeds) (fun ys s => ∃ k w l, Steps (Queue.init links) ys
    (s.withLock k) ∧ Tied s k w ∧ Inv (s.withLock k) l) (l := [])
    ⟨none, [], [], .nil _, Tied.init links, Inv.init links⟩ ?_
  rintro ys s x s' ⟨k, w, l, hsteps, htied, hi⟩ hok hst
  obtain ⟨k', w', hstep, htied', _⟩ := htied.simulates hi hok hn hst
  obtain ⟨l', hi'⟩ := hi.run hstep
  exact ⟨k', w', l', hsteps.append hstep, htied', hi'⟩

end

/-- On at most 256 CPUs, in every interleaving of the instructions of the lock with the rest
of the waits and signals: leaving out the instructions with which a task does not get the lock
gives a run over an abstract lock, with the same calls and POSIX signals, that ends in the same
memory with every task at the same place. So the sections under the lock are never entered by
two tasks, and the bytes of the word agree again whenever no task has the lock or a number. -/
theorem ticket_word_implements_lock (links : Links ListHead) (n : ℕ) (hn : n ≤ 256)
    (xs : List Action) (s : State) (hrun : Run step (OnCpus n) (init links) xs s) :
    (∃ ys k, Steps (Queue.init links) ys (s.withLock k) ∧ ys.Sublist xs ∧
      ys.filter (fun x => !isRun x) = xs.filter (fun x => !isRun x)) ∧
    (∀ t u, (s.pc t).locked = true → (s.pc u).locked = true → u = t) ∧
    ((∀ t, ¬ s.Busy t) → s.slock.high = s.slock.low) := by
  obtain ⟨k, w, l, hsteps, htied, hi⟩ := steps_run links hn hrun
  refine ⟨⟨_, k, hsteps, observe_kept_sublist .., hrun.observe_kept_filter _ ?_⟩, ?_, ?_⟩
  · intro s x hx
    cases x with
    | run t => cases hx
    | _ => rfl
  · intro t u ht hu
    have hk : k = some t := (hi.lock t).mpr ht
    exact (Option.some.inj (hk.symm.trans ((hi.lock u).mpr hu))).symm
  · intro hidle
    have hempty : k.toList ++ w = [] := by
      rw [List.eq_nil_iff_forall_not_mem]
      exact fun t ht => hidle t ((htied.mem_line hi).mp ht)
    have hline := htied.line
    rw [hempty] at hline
    exact hline

/-! ### A fixed run -/

theorem step_of_ne {s s' : State} {x : Action} {u : Task} (h : step s x = some s') (hu : u ≠ x.task) :
    s'.pc u = s.pc u ∧ s'.inc u = s.inc u := by
  cases x with
  | run t =>
    simp only [step] at h
    split at h
    next =>
      obtain ⟨⟨e, p⟩, _, hex⟩ := Option.bind_eq_some_iff.mp h
      cases e with
      | lock =>
        cases hex
        simp only [State.spin]
        refine ⟨?_, Function.update_of_ne hu ..⟩
        split
        · exact Function.update_of_ne hu ..
        · rfl
      | unlock =>
        cases hex
        exact ⟨Function.update_of_ne hu .., rfl⟩
      | _ =>
        simp only [execute] at hex
        obtain ⟨m, happly, rfl⟩ := Option.map_eq_some_iff.mp hex
        exact ⟨(goto_of_ne m p hu).trans (congrFun (apply_pc happly) u), rfl⟩
    next => cases h
  | wait t | sig t | posix t | deliver t | reuse t next prev =>
    simp only [step] at h
    obtain ⟨m, hm, rfl⟩ := Option.map_eq_some_iff.mp h
    refine ⟨(step_pc_cases hm (by simp)).resolve_right ?_, rfl⟩
    rintro ⟨_, ⟨hx, _⟩ | ⟨hx, _⟩⟩ <;> cases hx <;> exact hu rfl

def State.idleFrom (s : State) (j : Task) : Prop := ∀ t, j ≤ t → s.pc t = .user ∧ s.inc t = none

theorem State.idleFrom.step {s s' : State} {x : Action} {j : Task} (hi : s.idleFrom j)
    (hx : x.task < j) (h : Ticket.step s x = some s') : s'.idleFrom j := by
  intro t ht
  obtain ⟨hpc, hinc⟩ := step_of_ne h (Nat.ne_of_gt (Nat.lt_of_lt_of_le hx ht))
  rw [hpc, hinc]
  exact hi t ht

/-- Tasks below `j` have CPUs for all of them. -/
theorem State.idleFrom.onCpus {s : State} {x : Action} {j : Task} (hi : s.idleFrom j)
    (hx : x.task < j) : OnCpus j s x := by
  refine ⟨Finset.range j, by rw [Finset.card_range], Finset.mem_range.mpr hx, fun t hb => ?_⟩
  by_contra hge
  obtain ⟨hpc, hinc⟩ := hi t (by simpa using hge)
  rcases hb with hb | hb
  · rw [hpc] at hb
    cases hb
  · exact hb hinc

theorem run_of_test {s : State} {xs : List Action} (test : State → Bool) (hs : s.idleFrom 8)
    (h : (steps step (fun _ x => decide (x.task < 8)) s xs).map test = some true) :
    ∃ s', Run step (OnCpus 8) s xs s' ∧ s'.idleFrom 8 ∧ test s' = true := by
  obtain ⟨s', hs', ht⟩ := Option.map_eq_some_iff.mp h
  have hreach : Run step (OnCpus 8) s xs s' ∧ s'.idleFrom 8 := by
    refine Run.of_steps_invariant _ (State.idleFrom · 8) hs' hs ?_ ?_
    · exact fun s x s' hi hx hst => hi.step (of_decide_eq_true hx) hst
    · exact fun s x hi hx => hi.onCpus (of_decide_eq_true hx)
  exact ⟨s', hreach.1, hreach.2, ht⟩

-- Task 0 has the lock when the tasks 1 and 2 take their numbers and spin.
def spinners : List Action :=
  .wait 0 :: runs 0 6 ++ .wait 1 :: runs 1 7 ++ .wait 2 :: runs 2 8

theorem ticket_word_implements_lock_spinning :
    ∃ s, Run step (OnCpus 8) (init blank) spinners s ∧ (s.pc 0).locked = true ∧
      s.inc 1 ≠ none ∧ s.inc 2 ≠ none ∧ ¬ (s.pc 1).locked = true := by
  have hsteps : (steps step (fun _ x => decide (x.task < 8)) (init blank) spinners).map
      (fun s => (s.pc 0).locked && (s.inc 1).isSome && (s.inc 2).isSome) = some true := by
    decide +kernel
  obtain ⟨s, hs, _, ht⟩ := run_of_test _ (fun _ _ => ⟨rfl, rfl⟩) hsteps
  simp only [Bool.and_eq_true, Option.isSome_iff_ne_none] at ht
  have hlock := ticket_word_implements_lock blank 8 (by decide) spinners s hs
  exact ⟨s, hs, ht.1.1, ht.1.2, ht.2, fun h => absurd (hlock.2.1 0 1 ht.1.1 h) (by decide)⟩

/-- The lock is granted in the order of the numbers: those who have executed their `xaddw` are
those who have got the lock since, in the same order, and then those who still spin. Once the
lock is free, the first of these gets it with its next instruction. And from when a task has
its number until it gets the lock, fewer than `n` grants go to others. -/
theorem lock_first_come_first_served (links : Links ListHead) (n : ℕ) (hpos : 0 < n) (hn : n ≤ 256)
    (xs ys : List Action) (s s' : State) (hrun : Run step (OnCpus n) (init links) xs s)
    (hlater : Run step (OnCpus n) s ys s') :
    (∃ w, observe step arrivals (init links) xs = observe step grants (init links) xs ++ w ∧
      w.Nodup ∧ (∀ t, t ∈ w ↔ s.inc t ≠ none) ∧
      ∀ t, w.head? = some t → (∀ u, (s.pc u).locked = false) → succeeds s (.run t) = true) ∧
    ∀ t, s.inc t ≠ none → t ∉ observe step grants s ys → (observe step grants s ys).length < n := by
  obtain ⟨w, ⟨k, l, htied, hi⟩, hw⟩ := (Lined.init links).run hn hrun
  refine ⟨⟨w, hw, htied.nodup.of_append_right, htied.waits, ?_⟩, ?_⟩
  · intro t hfirst hfree
    have hk : k = none := by
      rw [Option.eq_none_iff_forall_ne_some]
      intro u hu
      have hlocked : (s.pc u).locked = true := (hi.lock u).mp hu
      rw [hfree u] at hlocked
      cases hlocked
    subst hk
    obtain ⟨w', rfl⟩ := List.head?_eq_some_iff.mp hfirst
    obtain ⟨v, hv⟩ := Option.ne_none_iff_exists'.mp ((htied.waits t).mp (List.mem_cons_self ..))
    have hserved := (htied.load_first (p := .user) hv).1
    simp [succeeds, ticketSpinLock, hv, hserved]
  · intro t ht hnot
    have hmem := (htied.waits t).mpr ht
    obtain ⟨w', _, hturn⟩ := Lined.run ⟨k, l, htied, hi⟩ hn hlater
    rcases List.append_eq_append_iff.mp hturn with ⟨as, hgone, _⟩ | ⟨bs, hwait, _⟩
    · exact absurd (hgone ▸ List.mem_append_left as hmem) hnot
    · cases hlater with
      | nil => exact hpos
      | cons hok _ _ =>
        have hle := (htied.length_le hi hok).1
        have hbs : bs ≠ [] := by
          rintro rfl
          rw [hwait, List.append_nil] at hmem
          exact hnot hmem
        have hlen := congrArg List.length hwait
        have hmore := List.length_pos_iff.mpr hbs
        rw [List.length_append] at hle hlen
        omega

-- Task 0 leaves; task 2 looks first, but task 1 gets the lock.
def leaves : List Action := runs 0 11 ++ runs 2 1 ++ runs 1 1

theorem lock_first_come_first_served_spinning :
    ∃ s s', Run step (OnCpus 8) (init blank) spinners s ∧ Run step (OnCpus 8) s leaves s' ∧
      observe step grants s leaves = [1] ∧
      2 ∉ observe step grants s leaves ∧ (observe step grants s leaves).length < 8 := by
  have hsteps : (steps step (fun _ x => decide (x.task < 8)) (init blank) spinners).map
      (fun s => (s.inc 2).isSome && decide (observe step grants s leaves = [1]) &&
        ((steps step (fun _ x => decide (x.task < 8)) s leaves).map fun _ => true) == some true) =
        some true := by
    decide +kernel
  obtain ⟨s, hs, hidle, ht⟩ := run_of_test _ (fun _ _ => ⟨rfl, rfl⟩) hsteps
  simp only [Bool.and_eq_true, decide_eq_true_eq, beq_iff_eq] at ht
  obtain ⟨s', hs', _, _⟩ := run_of_test _ hidle ht.2
  have hnot : 2 ∉ observe step grants s leaves := by
    rw [ht.1.2]
    decide
  have hfair := lock_first_come_first_served blank 8 (by decide) (by decide) spinners leaves s s' hs hs'
  exact ⟨s, s', hs, hs', ht.1.2, hnot,
    hfair.2 2 (Option.isSome_iff_ne_none.mp ht.1.1) hnot⟩

end DoEvent.Queue.Ticket
