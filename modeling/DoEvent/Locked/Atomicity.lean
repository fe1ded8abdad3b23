import DoEvent.Locked.Abstraction
import DoEvent.Transition.Simulation

/-!
# Every section is atomic

For runs without a wait, each step of the machine with single loads and stores is answered by
the step that makes the section, or by none. So whatever the calls return and leave in user
memory here, they do in a run of the machine in which a section is one step.
-/

namespace DoEvent.Locked

open Shared Transition

/-! ### Read sections -/

section
variable {c : DoEvent.State} {t : Task} {p : DoEvent.Pc} {i : Int32} {junk : Option Addr} {e : Addr}
  {aim : Aim} {k : Cred} {w : Change} {q : StatPtrs} {v : StatVals} {node : Addr → Node}

theorem access_reads (hat : (Lookup.access aim k).At i junk p) :
    Reads c t p (orFail (readSection c.mem c.eventlist k i) aim.after) := by
  obtain ⟨rfl, _⟩ := hat
  cases aim <;> exact ⟨rfl, rfl⟩

theorem access_found (hat : (Lookup.access aim k).At i junk p) (hfound : Found c i none e) :
    Reads c t p (if validateEvent k true (some (c.mem e)) then aim.after e else .ret (-1)) := by
  have hreads := access_reads (c := c) (t := t) hat
  have hsearch : searchLoop c.mem i none c.eventlist = some e := hfound
  rw [readSection, hsearch, Option.map_some] at hreads
  split_ifs with hv
  · rw [if_pos hv] at hreads
    exact hreads
  · rw [if_neg hv] at hreads
    exact hreads

theorem access_missed (hat : (Lookup.access aim k).At i junk p)
    (hmiss : searchLoop c.mem i none c.eventlist = none) : Reads c t p (.ret (-1)) := by
  have hreads := access_reads (c := c) (t := t) hat
  rw [readSection, hmiss] at hreads
  exact hreads

theorem change_reads (hat : (Lookup.change k w).At i junk p) :
    Reads c t p (orFail (readSectionUser c.mem c.eventlist k i junk) fun e => w.writes k e) := by
  obtain ⟨rfl, _⟩ := hat
  cases w <;> exact ⟨rfl, rfl⟩

theorem change_found (hat : (Lookup.change k w).At i junk p) (hfound : Found c i junk e) :
    Reads c t p (if validateUserEvent k (some (c.mem e)) then w.writes k e else .ret (-1)) := by
  have hreads := change_reads (c := c) (t := t) hat
  have hsearch : searchLoop c.mem i junk c.eventlist = some e := hfound
  rw [readSectionUser, hsearch, Option.map_some] at hreads
  split_ifs with hv
  · rw [if_pos hv] at hreads
    exact hreads
  · rw [if_neg hv] at hreads
    exact hreads

theorem change_missed (hat : (Lookup.change k w).At i junk p)
    (hmiss : searchLoop c.mem i junk c.eventlist = none) : Reads c t p (.ret (-1)) := by
  have hreads := change_reads (c := c) (t := t) hat
  rw [readSectionUser, hmiss] at hreads
  exact hreads

theorem stat_reads (hat : (Lookup.stat q v).At i junk p) {r : Option Addr × StatVals}
    (hloop : statLoop c.mem i junk v c.eventlist = r) :
    Reads c t p (orFail r.1 fun _ => .statCopy q r.2) := by
  obtain ⟨rfl, _⟩ := hat
  subst hloop
  exact ⟨rfl, rfl⟩

/-! ### Searches -/

theorem searchLoop_passed {mem : Addr → Event} (xs ys : List Addr) (hxs : ∀ a ∈ xs, (mem a).id ≠ i)
    (he : (mem e).id = i) : searchLoop mem i junk (xs ++ e :: ys) = some e := by
  induction xs generalizing junk with
  | nil => rw [List.nil_append, searchLoop, if_pos he]
  | cons a xs ih =>
    rw [List.cons_append, searchLoop, if_neg (hxs a (List.mem_cons_self ..))]
    exact ih fun b hb => hxs b (List.mem_cons_of_mem _ hb)

theorem statLoop_unknown {mem : Addr → Event} {l : List Addr} (h : ∀ a ∈ l, (mem a).id ≠ i) :
    (statLoop mem i junk v l).2 = v := by
  induction l generalizing junk with
  | nil => rfl
  | cons a l ih =>
    rw [statLoop, if_neg (h a (List.mem_cons_self ..))]
    exact ih fun b hb => h b (List.mem_cons_of_mem _ hb)

theorem Passed.found {ys : List Addr} (h : Passed c i (e :: ys)) (he : (c.mem e).id = i) :
    Found c i junk e := by
  obtain ⟨xs, hlist, hxs⟩ := h
  rw [Found, hlist]
  exact searchLoop_passed xs ys hxs he

theorem Passed.tail {ys : List Addr} (h : Passed c i (e :: ys)) (he : (c.mem e).id ≠ i) :
    Passed c i ys := by
  obtain ⟨xs, hlist, hxs⟩ := h
  refine ⟨xs ++ [e], by simpa using hlist, fun a ha => ?_⟩
  rcases List.mem_append.mp ha with ha | ha
  · exact hxs a ha
  · rw [List.mem_singleton.mp ha]
    exact he

/-- Where a search leaves the loop with the cursor `x`. -/
theorem exit_rel {r : Lookup} {x : Option Addr} (hat : r.At i junk p)
    (hx : searchLoop c.mem i junk c.eventlist = x)
    (hstat : ∀ q v, r = .stat q v → statLoop c.mem i junk v c.eventlist = (x, v))
    (hqueue : ∀ a ∈ c.eventlist, (node a).queue = []) : PcRel node c t (r.exit i x) p := by
  cases r with
  | access aim k =>
    obtain ⟨_, haim, rfl⟩ := id hat
    cases x with
    | none => exact access_missed hat hx
    | some e =>
      have hfound := access_found (t := t) hat hx
      simp only [Lookup.exit]
      split_ifs with hroot
      · simp only [validateEvent, hroot, beq_self_eq_true, Bool.true_or, if_true] at hfound
        exact ⟨hfound, haim, hqueue e (searchLoop_some hx).1⟩
      · exact ⟨hroot, i, hat, hx⟩
  | change k w =>
    cases x with
    | none => exact change_missed hat hx
    | some e =>
      have hfound := change_found (t := t) hat hx
      simp only [Lookup.exit]
      split_ifs with hroot
      · simp only [validateUserEvent, hroot, beq_self_eq_true, Bool.true_or, if_true] at hfound
        exact ⟨k, hfound⟩
      · exact ⟨hroot, i, junk, hat, hx⟩
  | stat q v =>
    have hexit : (Lookup.stat q v).exit i x = .statUnlock i q v x := by cases x <;> rfl
    rw [hexit]
    exact stat_reads hat (hstat q v rfl)

/-- The loop test, with the events in `rest` still to come. -/
theorem loopTest_rel {r : Lookup} {x : Option Addr} {rest : List Addr} (hat : r.At i junk p)
    (hpassed : Passed c i rest) (hhead : allevents ∉ rest)
    (hx : rest = [] → if c.eventlist = [] then x = junk else x = none)
    (hqueue : ∀ a ∈ c.eventlist, (node a).queue = []) :
    PcRel node c t (r.loopTest i x (rest.headD allevents)) p := by
  cases rest with
  | nil =>
    obtain ⟨xs, hlist, hxs⟩ := hpassed
    rw [List.append_nil] at hlist
    subst hlist
    have hsearch : searchLoop c.mem i junk c.eventlist = x := by
      by_cases hnil : c.eventlist = []
      · rw [if_pos hnil] at hx
        rw [hx rfl, hnil]
        rfl
      · rw [if_neg hnil] at hx
        rw [hx rfl]
        exact searchLoop_unknown hxs (.inl hnil)
    exact exit_rel hat hsearch
      (fun q v _ => Prod.ext ((statLoop_fst ..).trans hsearch) (statLoop_unknown hxs)) hqueue
  | cons a rest =>
    have ha : a ≠ allevents := fun he => hhead (he ▸ List.mem_cons_self ..)
    rw [Lookup.loopTest, List.headD_cons, if_neg ha]
    exact ⟨junk, hat, rest, hpassed⟩

theorem found_rel {r : Lookup} (hat : r.At i junk p) (hfound : ∀ junk, Found c i junk e)
    (hqueue : ∀ a ∈ c.eventlist, (node a).queue = []) : PcRel node c t (r.found i e) p := by
  cases r with
  | stat q v => exact ⟨v, junk, hat, hfound none⟩
  | access | change => exact exit_rel hat (hfound junk) (fun _ _ h => by cases h) hqueue

end

/-! ### What a step leaves related -/

section
variable {f m : State} {c c' : DoEvent.State} {l l' : List Addr} {t : Task} {p : Pc}
  {p' : DoEvent.Pc}

theorem Rel.goto (h : Rel f c l) (hinv : Inv (m.goto t p) l') (hpc : m.pc = f.pc)
    (hcpc : c'.pc = Function.update c.pc t p')
    (hself : (∀ u, u ≠ t → (f.pc u).access ≠ .write) → p.Settled m.node l' c')
    (hothers : ∀ u, u ≠ t → (f.pc u).access ≠ .none →
      c'.mem = c.mem ∧ c'.eventlist = c.eventlist ∧ l' = l ∧ events m.node = events f.node)
    (hqueue : ∀ a, (f.node a).queue = [] → (m.node a).queue = [])
    (hinUse : c'.inUse = m.inUse) (huser : c'.user = m.user) (hsched : c'.sched = m.sched)
    (honRq : ∀ u, (m.sched u).onRq = true) (hquiet : ∀ a ∈ c'.eventlist, (c'.mem a).queue = [])
    (hrel : PcRel m.node c' t p p') : Rel (m.goto t p) c' l' := by
  have hthere : ∀ u, u ≠ t → (m.goto t p).pc u = f.pc u := fun u hu => by
    rw [goto_pc_of_ne hu, hpc]
  refine ⟨hinv, ?_, ?_, hinUse, huser, hsched, honRq, hquiet, ?_⟩
  · intro u hw
    by_cases hu : u = t
    · subst hu
      rw [goto_pc]
      refine hself fun v hv hwv => ?_
      have hnone := hinv.lock.other hw hv
      rw [hthere v hv, hwv] at hnone
      cases hnone
    · rw [hthere u hu] at hw ⊢
      obtain ⟨hmem, hlist, hl, hevents⟩ := hothers u hu (by rw [hw]; decide)
      rw [Pc.Settled, hmem, hlist, hl]
      exact ⟨(events_storeAll_congr hevents _).trans (h.writer u hw).1, (h.writer u hw).2⟩
  · intro hnone
    have hp : p.access ≠ .write := by simpa using hnone t
    rw [← settled_iff (nothing_owed hp)]
    exact hself fun u hu => hthere u hu ▸ hnone u
  · intro u
    rw [hcpc]
    by_cases hu : u = t
    · rw [hu, goto_pc, Function.update_self]
      exact hrel
    · rw [hthere u hu, Function.update_of_ne hu]
      refine (h.pcs u).frame (fun hacc => ?_) hqueue
      obtain ⟨hmem, hlist, _⟩ := hothers u hu hacc
      exact ⟨hmem, hlist⟩

/-- A step that makes no write section, and owes after it what it owed before, but for a store
that it makes. -/
theorem Rel.keep (h : Rel f c l) (hinv : Inv (m.goto t p) l) (hpc : m.pc = f.pc)
    (hcpc : c'.pc = Function.update c.pc t p') (hmem : c'.mem = c.mem)
    (hlist : c'.eventlist = c.eventlist)
    (howed : events (storeAll m.node p.owed) = events (storeAll f.node (f.pc t).owed))
    (hlinking : p.linking = (f.pc t).linking)
    (hevents : (f.pc t).access = .write ∨ events m.node = events f.node)
    (hqueue : ∀ a, (f.node a).queue = [] → (m.node a).queue = [])
    (hinUse : c'.inUse = m.inUse) (huser : c'.user = m.user) (hsched : m.sched = f.sched)
    (hcsched : c'.sched = c.sched) (hrel : PcRel m.node c' t p p') : Rel (m.goto t p) c' l := by
  refine h.goto hinv hpc hcpc (fun hothers => ?_) (fun u hu hacc => ?_) hqueue hinUse huser
    (by rw [hcsched, h.sched, hsched]) (fun u => hsched ▸ h.onRq u) ?_ hrel
  · rw [Pc.Settled, howed, hlinking, hmem, hlist]
    exact h.settled hothers
  · refine ⟨hmem, hlist, rfl, hevents.resolve_left fun hw => hacc ?_⟩
    exact h.inv.lock.other hw hu
  · rw [hlist, hmem]
    exact h.quiet

end

/-! ### The answer to a step -/

/-- The steps that are answered. -/
def Pc.commits : Pc → Bool
  | .stores todo (.openFields _) => idFirst todo
  | .ret _ | .openRet _ | .closeActive _ | .closeNext .. | .closeKfree .. | .sigActive _ => true
  | .granted .. | .failUnlock | .changeFound .. | .changeLock .. => true
  | .statProbe .. | .statUnlock .. | .statCopy .. => true
  | .infoProbe .. | .infoUnlock .. | .infoCopy .. => true
  | _ => false

def commits (f : State) : Action → Bool
  | .run t => (f.pc t).commits
  | _ => true

/-- The steps that take part in the other machine's run. -/
def sectionSteps : State → Action → List Action := kept commits

def Answered (f : State) (c : DoEvent.State) (x : Action) (f' : State) : Prop :=
  ∃ c', Run DoEvent.step UnlinksAlone c (sectionSteps f x) c' ∧
    observe DoEvent.step DoEvent.callEvents c (sectionSteps f x) = callEvents f x ∧
    ∃ l, Rel f' c' l

section
variable {f f' m : State} {c c' : DoEvent.State} {l l' : List Addr} {t : Task} {p : Pc}
  {p' : DoEvent.Pc} {e : DoEvent.Effect}

theorem Answered.silent (hpc : (f.pc t).commits = false) (h : Rel f' c l) :
    Answered f c (.run t) f' := by
  have hsteps : sectionSteps f (.run t) = [] := kept_of_false hpc
  have hnote : callEvents f (.run t) = [] := by
    rw [callEvents]
    split
    next r hr =>
      rw [hr] at hpc
      cases hpc
    next => rfl
  refine ⟨c, ?_, ?_, l, h⟩
  · rw [hsteps]
    exact .nil c
  · rw [hsteps, hnote]
    rfl

/-- The two machines note down the same, as only a task that returns writes history. -/
theorem Rel.note_eq (h : Rel f c l) (hpc : (f.pc t).commits = true) :
    DoEvent.callEvents c (.run t) = callEvents f (.run t) := by
  have hrel := h.pcs t
  simp only [DoEvent.callEvents, callEvents]
  generalize f.pc t = q at hrel hpc
  generalize hp : c.pc t = p at hrel
  cases q with
  | ret r =>
    cases hrel
    rw [h.user]
  | stores todo k =>
    cases k with
    | openFields a =>
      rcases hrel with ⟨k, _, rfl⟩ | ⟨rfl, _⟩ <;> rfl
    | _ => cases hpc
  | failUnlock | statUnlock | infoUnlock =>
    have hread := hrel.isRead
    cases p <;> first | rfl | cases hread
  | granted =>
    have hread := hrel.1.isRead
    cases p <;> first | rfl | cases hread
  | changeFound =>
    obtain ⟨k, hk⟩ := hrel
    have hread := hk.isRead
    cases p <;> first | rfl | cases hread
  | changeLock w e =>
    obtain ⟨k, rfl⟩ := hrel
    cases w <;> rfl
  | closeActive | sigActive | closeNext => obtain ⟨rfl, _⟩ := hrel; rfl
  | openRet | closeKfree | statProbe | statCopy | infoProbe | infoCopy => cases hrel; rfl
  | _ => cases hpc

theorem Answered.answer {x : Action} (hx : commits f x = true) (hok : UnlinksAlone c x)
    (hst : DoEvent.step c x = some c') (hnote : DoEvent.callEvents c x = callEvents f x)
    (hrel : Rel f' c' l') : Answered f c x f' := by
  refine ⟨c', ?_, ?_, l', hrel⟩ <;> rw [sectionSteps, kept_of_true hx]
  · exact .single hok hst
  · rw [observe, hst, Option.elim_some, observe, List.append_nil]
    exact hnote

theorem Answered.commit (h : Rel f c l) (hpc : (f.pc t).commits = true)
    (hnext : DoEvent.next c t (c.pc t) = some (e, p')) (hok : UnlinksAlone c (.run t))
    (hrel : Rel f' ((DoEvent.apply c t e).goto t p') l') : Answered f c (.run t) f' := by
  refine .answer hpc hok ?_ (h.note_eq hpc) hrel
  have hrq : (c.sched t).onRq = true := h.sched ▸ h.onRq t
  rw [DoEvent.step, if_pos hrq, hnext]
  rfl

theorem unlinksAlone_of_ne (h : ∀ a process, c.pc t ≠ .closeWrite a process) :
    UnlinksAlone c (.run t) := by
  rintro a ⟨u, process, hu, hpc⟩
  cases hu
  exact absurd hpc (h a process)

end

/-! ### Loads and the lock -/

/-- The step of a load, or of taking or releasing the lock. -/
def Effect.quiet : Effect → Bool
  | .skip | .readLock | .readUnlock | .writeLock | .writeUnlock => true
  | _ => false

section
variable {f m : State} {c : DoEvent.State} {l : List Addr} {t : Task} {p : Pc}
  {p' : DoEvent.Pc} {e : Effect}

structure SameMemory (f m : State) : Prop where
  pc : m.pc = f.pc
  node : m.node = f.node
  inUse : m.inUse = f.inUse
  user : m.user = f.user
  sched : m.sched = f.sched

theorem apply_quiet (he : e.quiet = true) (happly : apply f t e = some m) : SameMemory f m := by
  cases e with
  | skip | readUnlock | writeUnlock =>
    cases happly
    exact ⟨rfl, rfl, rfl, rfl, rfl⟩
  | readLock | writeLock =>
    obtain ⟨k, _, rfl⟩ := Option.map_eq_some_iff.mp happly
    exact ⟨rfl, rfl, rfl, rfl, rfl⟩
  | _ => cases he

variable (h : Rel f c l) (hinv : Inv (m.goto t p) l) (he : e.quiet = true)
  (happly : apply f t e = some m)
  (hsame : p.owed = (f.pc t).owed ∧ p.linking = (f.pc t).linking)
include h hinv he happly hsame

theorem Answered.load (hcommits : (f.pc t).commits = false)
    (hrel : PcRel f.node c t p (c.pc t)) : Answered f c (.run t) (m.goto t p) := by
  have hm := apply_quiet he happly
  refine .silent hcommits (h.keep hinv hm.pc (Function.update_eq_self ..).symm rfl rfl ?_ hsame.2
    (.inr (by rw [hm.node])) (fun a ha => hm.node ▸ ha) (h.inUse.trans hm.inUse.symm)
    (h.user.trans hm.user.symm) hm.sched rfl (hm.node ▸ hrel))
  rw [hm.node, hsame.1]

/-- A section that is made with this step and changes no memory. -/
theorem Answered.section (hcommits : (f.pc t).commits = true)
    (hnext : DoEvent.next c t (c.pc t) = some (.skip, p'))
    (hok : ∀ a process, c.pc t ≠ .closeWrite a process)
    (hrel : PcRel f.node (c.goto t p') t p p') : Answered f c (.run t) (m.goto t p) := by
  have hm := apply_quiet he happly
  refine .commit h hcommits hnext (unlinksAlone_of_ne hok) (h.keep hinv hm.pc rfl rfl rfl ?_ hsame.2
    (.inr (by rw [hm.node])) (fun a ha => hm.node ▸ ha) (h.inUse.trans hm.inUse.symm)
    (h.user.trans hm.user.symm) hm.sched rfl (hm.node ▸ hrel))
  rw [hm.node, hsame.1]

end

/-! ### Read sections, step by step -/

section
variable {f m : State} {c : DoEvent.State} {l : List Addr} {t : Task} {p : Pc}
  {p' : DoEvent.Pc} {e : Effect}

theorem Reads.not_closeWrite {p p' : DoEvent.Pc} (h : Reads c t p p') (a : Addr) (process : Bool) :
    p ≠ .closeWrite a process := by
  rintro rfl
  cases h.isRead

theorem Effect.Shifts.not_write {b : Access} (h : e.Shifts .read b) : b ≠ .write := by
  rintro rfl
  cases e <;> simp [Effect.Shifts] at h

/-- Where the loop of info goes on or ends; the invariant has what it collects. -/
theorem infoTest_rel {num : Int32} {q : Option ℕ} {arr : List Int32} {check : Int32} {pos : Addr}
    (hok : PcOk f.node l (infoTest num q arr check pos)) (hmem : events f.node = c.mem)
    (hlist : l = c.eventlist) (hp : p' = .infoRead num q) :
    PcRel f.node c t (infoTest num q arr check pos) p' := by
  simp only [infoTest] at hok ⊢
  split_ifs at hok ⊢
  · subst hp
    refine ⟨rfl, ?_⟩
    rw [PcOk, hmem, hlist] at hok
    simp only [DoEvent.next, ← hok]
  · exact hp
  · exact hp

theorem Rel.run_reading (h : Rel f c l) (hread : (f.pc t).access = .read)
    (hnext : next f t (f.pc t) = some (e, p)) (happly : apply f t e = some m)
    (hinv : Inv (m.goto t p) l) : Answered f c (.run t) (m.goto t p) := by
  obtain ⟨hmem, hlist⟩ := h.reading hread
  have hrel := h.pcs t
  have hok := h.inv.pcs t
  have hring : (links f.node).Ring allevents c.eventlist := hlist ▸ h.inv.free (h.inv.lock.no_writer hread)
  have hhead : allevents ∉ c.eventlist := (List.nodup_cons.mp hring.nodup).1
  have hqueue : ∀ a ∈ c.eventlist, (f.node a).queue = [] := fun a ha => by
    have hq := h.quiet a ha
    rw [← hmem] at hq
    exact hq
  have hp : p.access ≠ .write := by
    have hshift := (next_passes hnext).shifts
    rw [hread] at hshift
    exact hshift.not_write
  have hsame : p.owed = (f.pc t).owed ∧ p.linking = (f.pc t).linking := by
    have hf := nothing_owed (q := f.pc t) (by rw [hread]; decide)
    rw [hf.1, hf.2]
    exact nothing_owed hp
  generalize hpc : f.pc t = q at hrel hok hnext hread
  generalize hcpc : c.pc t = p₀ at hrel
  -- A step inside the section.
  have hload : e.quiet = true → q.commits = false → PcRel f.node c t p p₀ →
      Answered f c (.run t) (m.goto t p) := fun he hcommits hself =>
    .load h hinv he happly hsame (hpc ▸ hcommits) (hcpc ▸ hself)
  -- The last step of the section, which releases the lock.
  have hdone : ∀ p', e.quiet = true → q.commits = true → Reads c t p₀ p' →
      PcRel f.node (c.goto t p') t p p' → Answered f c (.run t) (m.goto t p) :=
    fun p' he hcommits hreads hself => .section h hinv he happly hsame (hpc ▸ hcommits)
      (hcpc ▸ hreads.next) (hcpc ▸ hreads.not_closeWrite) hself
  cases q with
  | searchFirst k i w =>
    cases hnext
    have hfirst : (f.node allevents).next = c.eventlist.headD allevents := hring.next_head
    refine hload rfl rfl ?_
    rw [hfirst]
    refine loopTest_rel hrel ⟨[], rfl, List.forall_mem_nil _⟩ hhead (fun hnil => ?_) hqueue
    rw [if_pos hnil]
  | searchId k i pos =>
    cases hnext
    obtain ⟨junk, hat, ys, hpassed⟩ := hrel
    refine hload rfl rfl ?_
    split_ifs with hid
    · exact found_rel hat (fun _ => hpassed.found (by rw [← hmem]; exact hid)) hqueue
    · exact ⟨junk, hat, by rw [← hmem]; exact hid, ys, hpassed⟩
  | searchNext k i pos =>
    cases hnext
    obtain ⟨junk, hat, hid, ys, hpassed⟩ := hrel
    have htail := hpassed.tail hid
    obtain ⟨xs, hxs, _⟩ := hpassed
    have hnext : (f.node pos).next = ys.headD allevents := by
      rw [hxs] at hring
      exact hring.next_member
    refine hload rfl rfl ?_
    rw [hnext]
    refine loopTest_rel hat htail (fun hm => hhead (by rw [hxs]; simp [hm])) (fun _ => ?_) hqueue
    rw [if_neg (by rw [hxs]; simp)]
  | failUnlock =>
    cases hnext
    exact hdone _ rfl rfl hrel rfl
  | checkUid aim k e =>
    cases hnext
    obtain ⟨hroot, i, hat, hfound⟩ := hrel
    have huid : (c.mem e).uid = (f.node e).uid := by rw [← hmem]; rfl
    refine hload rfl rfl ?_
    split_ifs with hu
    · exact ⟨⟨hroot, hu.trans huid.symm⟩, i, hat, hfound⟩
    · exact ⟨⟨hroot, fun hc => hu (hc.1.trans huid)⟩, i, hat, hfound⟩
  | checkUidFlag aim k e =>
    cases hnext
    obtain ⟨⟨hroot, hu⟩, i, hat, hfound⟩ := hrel
    have hflag : (c.mem e).uidFlag = (f.node e).uidFlag := by rw [← hmem]; rfl
    refine hload rfl rfl ?_
    split_ifs with hf
    · refine ⟨?_, hat.2.1, hqueue e (searchLoop_some hfound).1⟩
      have hreads := access_found (t := t) hat hfound
      simpa [validateEvent, ← hu, hflag, hf] using hreads
    · exact ⟨⟨hroot, fun hc => hf (hflag ▸ hc.2)⟩, i, hat, hfound⟩
  | checkGid aim k e =>
    cases hnext
    obtain ⟨⟨hroot, hu⟩, i, hat, hfound⟩ := hrel
    have hgid : (c.mem e).gid = (f.node e).gid := by rw [← hmem]; rfl
    refine hload rfl rfl ?_
    split_ifs with hg
    · exact ⟨⟨hroot, hu, hg.trans hgid.symm⟩, i, hat, hfound⟩
    · have hreads := access_found (t := t) hat hfound
      simpa [PcRel, validateEvent, hroot, hu, hgid, hg] using hreads
  | checkGidFlag aim k e =>
    cases hnext
    obtain ⟨⟨hroot, hu, hg⟩, i, hat, hfound⟩ := hrel
    have hflag : (c.mem e).gidFlag = (f.node e).gidFlag := by rw [← hmem]; rfl
    have hreads := access_found (t := t) hat hfound
    refine hload rfl rfl ?_
    split_ifs with hf
    · refine ⟨?_, hat.2.1, hqueue e (searchLoop_some hfound).1⟩
      simpa [validateEvent, ← hg, hflag, hf] using hreads
    · simpa [PcRel, validateEvent, hroot, hu, hflag, hf] using hreads
  | granted aim e =>
    cases hnext
    obtain ⟨hreads, haim, hq⟩ := hrel
    refine hdone _ rfl rfl hreads ?_
    cases aim with
    | close | sig => exact ⟨rfl, hq⟩
    | wait => exact absurd rfl haim
  | checkOwner k w e =>
    cases hnext
    obtain ⟨hroot, i, junk, hat, hfound⟩ := hrel
    have huid : (c.mem e).uid = (f.node e).uid := by rw [← hmem]; rfl
    have hreads := change_found (t := t) hat hfound
    refine hload rfl rfl ?_
    split_ifs with hu
    · exact ⟨k, by simpa [validateUserEvent, huid, hu] using hreads⟩
    · simpa [PcRel, validateUserEvent, hroot, huid, hu] using hreads
  | changeFound w e =>
    cases hnext
    obtain ⟨k, hreads⟩ := hrel
    exact hdone _ rfl rfl hreads ⟨k, rfl⟩
  | statUid | statGid | statUidFlag =>
    cases hnext
    exact hload rfl rfl hrel
  | statGidFlag i q v e =>
    cases hnext
    obtain ⟨v₀, junk, hat, hfound⟩ := hrel
    obtain ⟨_, _, huid, hgid, huf⟩ := hok
    refine hload rfl rfl ?_
    have hvals : (c.mem e).vals = { v with gidFlag := (f.node e).gidFlag } := by
      rw [← hmem, events, Event.vals, huid, hgid, huf]
    exact hvals ▸ stat_reads hat (statLoop_found hfound junk v₀)
  | statUnlock i q v w =>
    cases hnext
    refine hdone _ rfl rfl hrel ?_
    cases w <;> rfl
  | infoFirst num q =>
    cases hnext
    cases happly
    refine hload rfl rfl (infoTest_rel ?_ hmem hlist hrel)
    have hok' := hinv.pcs t
    rw [goto_pc] at hok'
    exact hok'
  | infoId num q arr check pos =>
    cases hnext
    exact hload rfl rfl hrel
  | infoNext num q arr check pos =>
    cases hnext
    cases happly
    refine hload rfl rfl (infoTest_rel ?_ hmem hlist hrel)
    have hok' := hinv.pcs t
    rw [goto_pc] at hok'
    exact hok'
  | infoUnlock num q arr check =>
    cases hnext
    exact hdone _ rfl rfl hrel rfl
  | stores todo k => cases k <;> cases hread
  | _ => cases hread

end

/-! ### Write sections, step by step -/

section
variable {f m : State} {c : DoEvent.State} {l : List Addr} {t : Task} {p : Pc}
  {p' : DoEvent.Pc} {e : Effect}

/-- A store that the other machine does not make, or has made. -/
theorem Answered.store {w : Addr × Store} {todo : List (Addr × Store)} {k : Storing} (h : Rel f c l)
    (hpc : f.pc t = .stores (w :: todo) k)
    (hinv : Inv ({ f with node := storeAt f.node w }.goto t (.stores todo k)) l)
    (hmild : w.2.mild) (hcommits : (f.pc t).commits = false)
    (hkind : w.2.isLink = true ∧ k.owed todo = k.owed (w :: todo) ∨
      k.access = .write ∧ w :: k.owed todo = k.owed (w :: todo))
    (hlinking : k.linking todo = k.linking (w :: todo))
    (hrel : PcRel (storeAt f.node w) c t (.stores todo k) (c.pc t)) :
    Answered f c (.run t) ({ f with node := storeAt f.node w }.goto t (.stores todo k)) := by
  refine .silent hcommits (h.keep hinv rfl (Function.update_eq_self ..).symm rfl rfl ?_ ?_ ?_
    (fun _ => queue_storeAt fun _ => mild_queue hmild) h.inUse h.user rfl rfl hrel)
  · rw [hpc]
    rcases hkind with ⟨hlink, howed⟩ | ⟨_, howed⟩
    · show events (storeAll (storeAt f.node w) (k.owed todo)) = events (storeAll f.node (k.owed (w :: todo)))
      rw [howed]
      exact events_storeAll_congr (events_storeAt_link hlink) _
    · show events (storeAll (storeAt f.node w) (k.owed todo)) = events (storeAll f.node (k.owed (w :: todo)))
      rw [← howed]
      rfl
  · rw [hpc]
    exact hlinking
  · rw [hpc]
    exact hkind.symm.imp And.left fun hlink => events_storeAt_link hlink.1

/-- The new event is on the ring from here on; the other machine lists it with its id. -/
theorem Rel.run_openPrev {k : Cred} {a : Addr} (h : Rel f c l) (hpc : f.pc t = .openPrev k a)
    (hinv : Inv (f.goto t (.stores (listAdd a (f.node allevents).prev allevents) (.listAdd k a)))
      (l ++ [a])) :
    Answered f c (.run t)
      (f.goto t (.stores (listAdd a (f.node allevents).prev allevents) (.listAdd k a))) := by
  have hw : (f.pc t).access = .write := by rw [hpc]; rfl
  have hsettled := h.writer t hw
  rw [hpc, settled_iff ⟨rfl, rfl⟩] at hsettled
  have hrel := h.pcs t
  rw [hpc] at hrel
  refine .silent (by rw [hpc]; rfl) (h.goto hinv rfl (Function.update_eq_self ..).symm ?_ ?_
    (fun _ ha => ha) h.inUse h.user h.sched h.onRq h.quiet ⟨hrel, ?_⟩)
  · intro _
    rw [hsettled.2]
    exact ⟨hsettled.1, rfl⟩
  · exact fun u hu hacc => absurd (h.inv.lock.other hw hu) hacc
  · simp [listAdd, Store.isLink]

/-- The section of open, made with the store of the id. -/
theorem Rel.run_openFields {k : Cred} {a : Addr} {w : Addr × Store} {todo : List (Addr × Store)}
    (h : Rel f c l) (hpc : f.pc t = .stores (w :: todo) (.openFields a))
    (htodo : w :: todo = openFields k a (c.mem (lastEvent c)).id) (hcpc : c.pc t = .openWrite k a)
    (hinv : Inv ({ f with node := storeAt f.node w }.goto t (.stores todo (.openFields a))) l) :
    Answered f c (.run t) ({ f with node := storeAt f.node w }.goto t (.stores todo (.openFields a))) := by
  have hw : (f.pc t).access = .write := by rw [hpc]; rfl
  have hsettled := h.writer t hw
  have hfirst : idFirst (w :: todo) = true := by rw [htodo]; rfl
  rw [hpc, Pc.Settled, Pc.owed, Pc.linking, Storing.owed, Storing.linking, if_pos hfirst,
    if_pos hfirst] at hsettled
  obtain ⟨hmem, hlist⟩ := hsettled
  have hstores : events (storeAll (storeAt f.node w) todo) = (openSection c k a).mem := by
    have hfields := events_openFields f.node k a (c.mem (lastEvent c)).id
    rw [← htodo, show events f.node = c.mem from hmem] at hfields
    exact hfields
  have hmild : ∀ w ∈ todo, w.2.mild := by
    have hrest := openFields_mild k a (c.mem (lastEvent c)).id
    rw [← htodo] at hrest
    exact hrest
  obtain ⟨rfl, _⟩ := List.cons.inj htodo
  have hnext : DoEvent.next c t (c.pc t) = some (.openSection k a, .openRet a) := by rw [hcpc]; rfl
  refine .commit h (by rw [hpc]; exact hfirst) hnext (unlinksAlone_of_ne (by simp [hcpc])) (h.goto hinv
    rfl rfl ?_ ?_ (fun _ => queue_storeAt fun _ hq => by cases hq) h.inUse h.user h.sched h.onRq ?_ ?_)
  · intro _
    rw [Pc.Settled, Pc.owed, Pc.linking, (openFields_owed hmild a).1, (openFields_owed hmild a).2]
    exact ⟨hstores, hlist.trans (List.append_nil _).symm⟩
  · exact fun u hu hacc => absurd (h.inv.lock.other hw hu) hacc
  · intro b hb
    by_cases hba : b = a
    · subst hba
      simp [DoEvent.apply, openSection, DoEvent.State.goto]
    · have hb' : b ∈ c.eventlist := by simpa [DoEvent.apply, openSection, DoEvent.State.goto, hba] using hb
      simpa [DoEvent.apply, openSection, DoEvent.State.goto, hba] using h.quiet b hb'
  · exact .inr ⟨rfl, hmild⟩

/-- The section of close, made with the last load before the stores of `list_del_init`. -/
theorem Rel.run_closeNext {e prev : Addr} {n : ℕ} (h : Rel f c l) (hok : ClosesApart f)
    (hpc : f.pc t = .closeNext e n prev)
    (hinv : Inv (f.goto t (.stores (listDelInit e prev (f.node e).next) (.listDelInit e n)))
      (l.erase e)) :
    Answered f c (.run t)
      (f.goto t (.stores (listDelInit e prev (f.node e).next) (.listDelInit e n))) := by
  have hw : (f.pc t).access = .write := by rw [hpc]; rfl
  have hsettled := h.writer t hw
  rw [hpc, settled_iff ⟨rfl, rfl⟩] at hsettled
  have hrel := h.pcs t
  rw [hpc] at hrel
  obtain ⟨hcpc, rfl⟩ := hrel
  have hnext : DoEvent.next c t (c.pc t) = some (.closeSection e false, .closeKfree e 0) := by
    rw [hcpc]
    rfl
  have halone : UnlinksAlone c (.run t) := by
    rintro a ⟨v, process, hv, hpcv⟩ u hu hold
    cases hv
    rw [hcpc] at hpcv
    cases hpcv
    exact hu (hok u t e ((h.pcs u).closes hold) (by rw [hpc]; rfl))
  refine .commit h (by rw [hpc]; rfl) hnext halone (h.goto hinv rfl rfl ?_ ?_ (fun _ ha => ha) h.inUse
    h.user h.sched h.onRq ?_ ⟨rfl, ?_⟩)
  · intro _
    refine ⟨hsettled.1, ?_⟩
    rw [hsettled.2]
    exact (List.append_nil _).symm
  · exact fun u hu hacc => absurd (h.inv.lock.other hw hu) hacc
  · exact fun b hb => h.quiet b (List.mem_of_mem_erase hb)
  · simp [listDelInit, initListHead, Store.isLink]

/-- The section of chown and chmod, made when the lock is taken. -/
theorem Rel.run_changeLock {k : Cred} {w : Change} {e : Addr} {r : RwLock Task} (h : Rel f c l)
    (hpc : f.pc t = .changeLock w e) (hcpc : c.pc t = w.writes k e)
    (hinv : Inv ({ f with lock := r }.goto t (.stores (w.stores e) .change)) l) :
    Answered f c (.run t) ({ f with lock := r }.goto t (.stores (w.stores e) .change)) := by
  have hnext : DoEvent.next c t (c.pc t) = some (w.effect e, .ret 0) := by
    rw [hcpc]
    cases w <;> rfl
  have hok : ∀ a process, c.pc t ≠ .closeWrite a process := by
    rw [hcpc]
    cases w <;> simp [Change.writes]
  have hnone : ∀ u, u ≠ t → (f.pc u).access = .none := by
    intro u hu
    have ho := hinv.lock.other (t := t) (u := u) (by rw [goto_pc]; rfl) hu
    rw [goto_pc_of_ne hu] at ho
    exact ho
  have hsettled := h.settled (t := t) fun u hu => by rw [hnone u hu]; decide
  rw [hpc, settled_iff ⟨rfl, rfl⟩] at hsettled
  have hevents := events_change hsettled.1 t w e
  refine .commit h (by rw [hpc]; rfl) hnext (unlinksAlone_of_ne hok) (h.goto hinv rfl ?_ ?_ ?_
    (fun _ ha => ha) ?_ ?_ ?_ h.onRq ?_ ⟨rfl, ?_⟩)
  · cases w <;> rfl
  · intro _
    refine ⟨hevents, ?_⟩
    rw [hsettled.2]
    cases w <;> exact (List.append_nil _).symm
  · exact fun u hu hacc => absurd (hnone u hu) hacc
  · rw [← h.inUse]
    cases w <;> rfl
  · rw [← h.user]
    cases w <;> rfl
  · rw [← h.sched]
    cases w <;> rfl
  · intro b hb
    have hb' : b ∈ c.eventlist := by cases w <;> exact hb
    exact (change_mem_queue c t w e b).trans (h.quiet b hb')
  · cases w <;> simp [Change.stores, Store.mild]

theorem Rel.run_writing (h : Rel f c l) (hok : ClosesApart f) (hw : (f.pc t).access = .write)
    (hnext : next f t (f.pc t) = some (e, p)) (happly : apply f t e = some m)
    (hinv : Inv (m.goto t p) ((edits f (.run t)).foldl Edit.act l)) :
    Answered f c (.run t) (m.goto t p) := by
  have hrel := h.pcs t
  have hsettled := h.writer t hw
  rw [edits] at hinv
  generalize hpc : f.pc t = q at hrel hnext hw hinv hsettled
  cases q with
  | openPrev k a =>
    cases hnext
    cases happly
    exact h.run_openPrev hpc hinv
  | closeNext e n prev =>
    cases hnext
    cases happly
    exact h.run_closeNext hok hpc hinv
  | openLast k a =>
    cases hnext
    refine .load h hinv rfl happly ?_ (hpc ▸ rfl) hrel
    rw [hpc]
    exact ⟨rfl, rfl⟩
  | openLastid k a last =>
    cases hnext
    refine .load h hinv rfl happly ?_ (hpc ▸ rfl) (.inl ⟨k, ?_, hrel⟩)
    · rw [hpc]
      exact ⟨rfl, rfl⟩
    · have hok := h.inv.pcs t
      rw [hpc] at hok
      obtain ⟨xs, hxs, rfl⟩ := hok
      obtain ⟨rfl, _⟩ := List.append_inj' (hxs.symm.trans hsettled.2) rfl
      rw [h.id_eq, lastEvent]
  | openUnlock | closePrev | closeUnlock | changeUnlock =>
    cases hnext
    refine .load h hinv rfl happly ?_ (hpc ▸ rfl) hrel
    rw [hpc]
    exact ⟨rfl, rfl⟩
  | stores todo k =>
    cases todo with
    | nil =>
      cases hnext
      refine .load h hinv rfl happly ?_ ?_ ?_
      · rw [hpc]
        cases k <;> exact ⟨rfl, rfl⟩
      · rw [hpc]
        cases k <;> rfl
      · cases k with
        | openFields a =>
          rcases hrel with ⟨k, hk, _⟩ | ⟨hp, _⟩
          · cases hk
          · exact hp
        | listAdd | listDelInit | change => exact hrel.1
        | initListHead => cases hw
        | _ => exact hrel.elim
    | cons w todo =>
      cases hnext
      cases happly
      cases k with
      | listAdd k a =>
        have hlink := hrel.2 w (List.mem_cons_self ..)
        exact .store h hpc hinv (mild_of_isLink hlink) (by rw [hpc]; rfl) (.inl ⟨hlink, rfl⟩) rfl
          ⟨hrel.1, fun w' hw' => hrel.2 w' (List.mem_cons_of_mem _ hw')⟩
      | listDelInit e n =>
        have hlink := hrel.2 w (List.mem_cons_self ..)
        exact .store h hpc hinv (mild_of_isLink hlink) (by rw [hpc]; rfl) (.inl ⟨hlink, rfl⟩) rfl
          ⟨hrel.1, fun w' hw' => hrel.2 w' (List.mem_cons_of_mem _ hw')⟩
      | change =>
        exact .store h hpc hinv (hrel.2 w (List.mem_cons_self ..)) (by rw [hpc]; rfl) (.inr ⟨rfl, rfl⟩)
          rfl ⟨hrel.1, fun w' hw' => hrel.2 w' (List.mem_cons_of_mem _ hw')⟩
      | openFields a =>
        rcases hrel with ⟨k, htodo, hcpc⟩ | ⟨hp, hmild⟩
        · exact h.run_openFields hpc htodo hcpc hinv
        · have hrest : ∀ w' ∈ todo, w'.2.mild := fun w' hw' => hmild w' (List.mem_cons_of_mem _ hw')
          obtain ⟨howed, hlinking⟩ := openFields_owed hmild a
          obtain ⟨howed', hlinking'⟩ := openFields_owed hrest a
          refine .store h hpc hinv (hmild w (List.mem_cons_self ..)) ?_ (.inr ⟨rfl, ?_⟩) ?_ (.inr ⟨hp, hrest⟩)
          · rw [hpc]
            exact idFirst_of_mild hmild
          · exact (congrArg _ howed').trans howed.symm
          · exact hlinking'.trans hlinking.symm
      | initListHead => cases hw
      | _ => exact hrel.elim
  | _ =>
    first
    | exact hrel.elim
    | cases hw

/-! ### Steps outside the lock -/

theorem Rel.run_copyOut {u : UserMem} {r : Int} (h : Rel f c l)
    (hout : (f.pc t).access = .none) (hcommits : (f.pc t).commits = true)
    (hnext : DoEvent.next c t (c.pc t) = some (.copyOut u, .ret r))
    (hok : ∀ a process, c.pc t ≠ .closeWrite a process)
    (hinv : Inv ({ f with user := Function.update f.user t u }.goto t (.ret r)) l) :
    Answered f c (.run t) ({ f with user := Function.update f.user t u }.goto t (.ret r)) := by
  have hf := nothing_owed (q := f.pc t) (by rw [hout]; decide)
  refine .commit h hcommits hnext (unlinksAlone_of_ne hok) (h.keep hinv rfl rfl rfl rfl ?_ ?_ (.inr rfl)
    (fun _ ha => ha) h.inUse ?_ rfl rfl rfl)
  · rw [hf.1]
    rfl
  · rw [hf.2]
    rfl
  · show Function.update c.user t u = Function.update f.user t u
    rw [h.user]

theorem Rel.run_closeKfree {a : Addr} {n : ℕ} (h : Rel f c l) (hpc : f.pc t = .closeKfree a n)
    (hinv : Inv ({ f with inUse := Function.update f.inUse a false }.goto t (.ret n)) l) :
    Answered f c (.run t) ({ f with inUse := Function.update f.inUse a false }.goto t (.ret n)) := by
  have hcpc := h.pcs t
  rw [hpc] at hcpc
  have hpc' : c.pc t = .closeKfree a n := hcpc
  have hnext : DoEvent.next c t (c.pc t) = some (.kfree a, .ret n) := by rw [hpc']; rfl
  refine .commit h (by rw [hpc]; rfl) hnext (unlinksAlone_of_ne (by simp [hpc'])) (h.keep hinv rfl rfl
    rfl rfl (by rw [hpc]; rfl) (by rw [hpc]; rfl) (.inr rfl) (fun _ ha => ha) ?_ h.user rfl rfl rfl)
  show Function.update c.inUse a false = Function.update f.inUse a false
  rw [h.inUse]

theorem Rel.run_outside (h : Rel f c l) (hout : (f.pc t).access = .none)
    (hnext : next f t (f.pc t) = some (e, p)) (happly : apply f t e = some m)
    (hinv : Inv (m.goto t p) l) : Answered f c (.run t) (m.goto t p) := by
  have hrel := h.pcs t
  generalize hpc : f.pc t = q at hrel hnext hout
  generalize hcpc : c.pc t = p₀ at hrel
  have hload : e.quiet = true → q.commits = false → p.owed = q.owed ∧ p.linking = q.linking →
      PcRel f.node c t p p₀ → Answered f c (.run t) (m.goto t p) := fun he hcommits hsame hself =>
    .load h hinv he happly (hpc ▸ hsame) (hpc ▸ hcommits) (hcpc ▸ hself)
  have hdone : ∀ p', e.quiet = true → q.commits = true → p.owed = q.owed ∧ p.linking = q.linking →
      DoEvent.next c t p₀ = some (.skip, p') → (∀ a process, p₀ ≠ .closeWrite a process) →
      PcRel f.node (c.goto t p') t p p' → Answered f c (.run t) (m.goto t p) :=
    fun p' he hcommits hsame hcnext hok hself => .section h hinv he happly (hpc ▸ hsame)
      (hpc ▸ hcommits) (hcpc ▸ hcnext) (hcpc ▸ hok) hself
  cases q with
  | user | openAlloc => cases hnext
  | ret r =>
    cases hnext
    cases hrel
    exact hdone _ rfl rfl ⟨rfl, rfl⟩ rfl (by simp) rfl
  | openLock k a | searchLock k i w | infoLock num q =>
    cases hnext
    exact hload rfl rfl ⟨rfl, rfl⟩ hrel
  | openRet a =>
    cases hnext
    cases hrel
    refine hdone _ rfl rfl ⟨rfl, rfl⟩ rfl (by simp) ?_
    rw [PcRel, h.id_eq]
  | closeActive a =>
    cases hnext
    obtain ⟨rfl, hq⟩ := hrel
    refine hdone _ rfl rfl ⟨rfl, rfl⟩ rfl (by simp) ?_
    simp [PcRel, waitqueueActive, hq, h.queue_eq hq]
  | closeLock a process =>
    cases hnext
    obtain ⟨hp, rfl⟩ := hrel
    exact hload rfl rfl ⟨rfl, rfl⟩ ⟨hp, rfl⟩
  | sigActive a =>
    obtain ⟨rfl, hq⟩ := hrel
    have hidle : waitqueueActive (f.node a).toEvent = false := by rw [waitqueueActive, hq]; rfl
    have hidle' : waitqueueActive (c.mem a) = false := by rw [waitqueueActive, h.queue_eq hq]; rfl
    simp only [next, hidle] at hnext
    cases hnext
    refine hdone (.ret 0) rfl rfl ⟨rfl, rfl⟩ ?_ (by simp) rfl
    simp [DoEvent.next, hidle']
  | closeKfree a n =>
    cases hnext
    cases happly
    exact h.run_closeKfree hpc hinv
  | changeLock w a =>
    cases hnext
    obtain ⟨r, _, rfl⟩ := Option.map_eq_some_iff.mp happly
    obtain ⟨k, hk⟩ := hrel
    exact h.run_changeLock hpc (hcpc.trans hk) hinv
  | statProbe i q junk =>
    cases hrel
    have hcnext : DoEvent.next c t (.statProbe i q junk) = some (.skip, _) := rfl
    simp only [next] at hnext
    rw [h.user] at hcnext
    generalize statProbe (f.user t) q = r at hnext hcnext
    cases r with
    | none =>
      cases hnext
      exact hdone _ rfl rfl ⟨rfl, rfl⟩ hcnext (by simp) rfl
    | some v =>
      simp only at hnext hcnext
      split_ifs at hnext hcnext <;> cases hnext
      · exact hdone _ rfl rfl ⟨rfl, rfl⟩ hcnext (by simp) rfl
      · exact hdone _ rfl rfl ⟨rfl, rfl⟩ hcnext (by simp) ⟨rfl, trivial⟩
  | infoProbe num q =>
    cases hrel
    have hcnext : DoEvent.next c t (.infoProbe num q) = some (.skip, _) := rfl
    simp only [next] at hnext
    rw [h.user] at hcnext
    split_ifs at hnext hcnext <;> cases hnext <;>
      exact hdone _ rfl rfl ⟨rfl, rfl⟩ hcnext (by simp) rfl
  | statCopy q v =>
    cases hnext
    cases happly
    cases hrel
    refine h.run_copyOut (by rw [hpc]; rfl) (by rw [hpc]; rfl) ?_ (by simp [hcpc]) hinv
    rw [hcpc, ← h.user]
    rfl
  | infoCopy num q arr check =>
    cases hnext
    cases happly
    cases hrel
    refine h.run_copyOut (by rw [hpc]; rfl) (by rw [hpc]; rfl) ?_ (by simp [hcpc]) hinv
    rw [hcpc, ← h.user]
    rfl
  | stores todo k =>
    cases k with
    | initListHead k a =>
      cases todo with
      | nil =>
        cases hnext
        exact hload rfl rfl ⟨rfl, rfl⟩ hrel.1
      | cons w todo =>
        cases hnext
        cases happly
        have hlink := hrel.2 w (List.mem_cons_self ..)
        exact .store h hpc hinv (mild_of_isLink hlink) (by rw [hpc]; rfl) (.inl ⟨hlink, rfl⟩) rfl
          ⟨hcpc.trans hrel.1, fun w' hw' => hrel.2 w' (List.mem_cons_of_mem _ hw')⟩
    | _ => cases hout
  | _ =>
    first
    | exact hrel.elim
    | cases hout

end

/-! ### Every step -/

/-- No wait is called, and no two tasks have validated one event for close. -/
def WithoutWaits (f : State) (x : Action) : Prop :=
  ClosesApart f ∧ ∀ t k i, x ≠ .call t k (.doeventwait i)

section
variable {f f' : State} {c : DoEvent.State} {l : List Addr} {t : Task} {x : Action}

theorem entry_rel (node : Addr → Node) (k : Cred) {q : Call} (hq : ∀ i, q ≠ .doeventwait i) :
    PcRel node c t (entry k q) (DoEvent.entry k q) := by
  cases q with
  | doeventwait i => exact absurd rfl (hq i)
  | doeventopen | doeventstat => rfl
  | doeventclose i | doeventsig i | doeventchown i | doeventchmod i =>
    simp only [entry, DoEvent.entry]
    split_ifs
    · rfl
    · exact ⟨rfl, by simp⟩
  | doeventinfo num q =>
    simp only [entry, DoEvent.entry]
    split_ifs <;> rfl

theorem unlinksAlone_of_not_run (h : ∀ t, x ≠ .run t) : UnlinksAlone c x := by
  rintro a ⟨t, process, rfl, _⟩
  exact absurd rfl (h t)

theorem Rel.setSched {v : Sched} (h : Rel f c l) (hv : v.onRq = true)
    (hinv : Inv (f.setSched t v) l) : Rel (f.setSched t v) (c.setSched t v) l where
  inv := hinv
  writer := h.writer
  free := h.free
  inUse := h.inUse
  user := h.user
  sched := congrArg (fun sched : Task → Sched => Function.update sched t v) h.sched
  onRq := fun u => onRq_setSched (h.onRq u) fun _ => hv
  quiet := h.quiet
  pcs := fun u => (h.pcs u).frame (fun _ => ⟨rfl, rfl⟩) fun _ ha => ha

theorem edits_of_access (h : (f.pc t).access ≠ .write) : edits f (.run t) = [] := by
  rw [edits]
  cases hpc : f.pc t with
  | openPrev | closeNext =>
    rw [hpc] at h
    exact absurd rfl h
  | _ => rfl

theorem Rel.step (h : Rel f c l) (hok : WithoutWaits f x) (hst : step f x = some f') :
    Answered f c x f' := by
  have hinv := h.inv.step hok.1 hst
  cases Move.of_step hst with
  | run t e p m hrq hnext happly =>
    cases hacc : (f.pc t).access with
    | none =>
      rw [edits_of_access (by simp [hacc])] at hinv
      exact h.run_outside hacc hnext happly hinv
    | read =>
      rw [edits_of_access (by simp [hacc])] at hinv
      exact h.run_reading hacc hnext happly hinv
    | write => exact h.run_writing hok.1 hacc hnext happly hinv
  | call t k q hpc =>
    have hrel := h.pcs t
    rw [hpc] at hrel
    have hcpc : c.pc t = .user := hrel
    obtain ⟨howed, hlinking⟩ := nothing_owed (q := entry k q) (by simp [(entry_holds k q).access])
    have hcst : DoEvent.step c (.call t k q) = some (c.goto t (DoEvent.entry k q)) := by
      rw [DoEvent.step, if_pos hcpc]
    refine .answer rfl (unlinksAlone_of_not_run fun _ hx => by cases hx) hcst rfl
      (h.keep hinv rfl rfl rfl rfl ?_ ?_ (.inr rfl) (fun _ ha => ha) h.inUse h.user rfl rfl
      (entry_rel f.node k fun i hi => hok.2 t k i (hi ▸ rfl)))
    · rw [hpc, howed]
      rfl
    · rw [hpc, hlinking]
      rfl
  | nomem t k hpc =>
    have hrel := h.pcs t
    rw [hpc] at hrel
    have hcpc : c.pc t = .openAlloc k := hrel
    have hcst : DoEvent.step c (.kmalloc t none) = some (c.goto t (.ret (-1))) := by
      rw [DoEvent.step, hcpc]
      rfl
    exact .answer rfl (unlinksAlone_of_not_run fun _ hx => by cases hx) hcst rfl
      (h.keep hinv rfl rfl rfl rfl (by rw [hpc]; rfl) (by rw [hpc]; rfl) (.inr rfl) (fun _ ha => ha)
      h.inUse h.user rfl rfl rfl)
  | kmalloc t k a hpc hfree =>
    have hrel := h.pcs t
    rw [hpc] at hrel
    have hcpc : c.pc t = .openAlloc k := hrel
    have hcst : DoEvent.step c (.kmalloc t (some a)) =
        some ((DoEvent.apply c t (.kmalloc a)).goto t (.openWrite k a)) := by
      rw [DoEvent.step, hcpc, DoEvent.kmallocStep, h.inUse, hfree]
      rfl
    refine .answer rfl (unlinksAlone_of_not_run fun _ hx => by cases hx) hcst rfl
      (h.keep hinv rfl rfl rfl rfl (by rw [hpc]; rfl) (by rw [hpc]; rfl) (.inr rfl) (fun _ ha => ha) ?_
      h.user rfl rfl ⟨rfl, ?_⟩)
    · show Function.update c.inUse a true = Function.update f.inUse a true
      rw [h.inUse]
    · simp [initListHead, Store.isLink]
  | posix t =>
    have hcst : DoEvent.step c (.posix t) = some (c.setSched t (signalWakeUp (f.sched t))) := by
      rw [← h.sched]
      rfl
    exact .answer rfl (unlinksAlone_of_not_run fun _ hx => by cases hx) hcst rfl
      (h.setSched (onRq_signalWakeUp (h.onRq t)) hinv)
  | deliver t hpc =>
    have hrel := h.pcs t
    rw [hpc] at hrel
    have hcpc : c.pc t = .user := hrel
    have hcst : DoEvent.step c (.deliver t) =
        some (c.setSched t { f.sched t with sigPending := false }) := by
      rw [DoEvent.step, if_pos hcpc, ← h.sched]
      rfl
    exact .answer rfl (unlinksAlone_of_not_run fun _ hx => by cases hx) hcst rfl
      (h.setSched (h.onRq t) hinv)

theorem Rel.init (node : Addr → Node) (user : Task → UserMem) :
    Rel (doeventInit node user) (DoEvent.doeventInit (events node) user) [] where
  inv := .init node user
  writer := fun t hw => by cases hw
  free := fun _ => by
    refine ⟨funext fun a => ?_, rfl⟩
    by_cases ha : a = allevents
    · simp [doeventInit, DoEvent.doeventInit, events, ha]
    · simp [doeventInit, DoEvent.doeventInit, events, ha]
  inUse := rfl
  user := rfl
  sched := rfl
  onRq := fun _ => rfl
  quiet := fun a ha => by cases ha
  pcs := fun t => rfl

end

/-! ### Every run -/

section
variable {f f' : State} {c : DoEvent.State} {l : List Addr} {t : Task} {xs : List Action}

theorem Rel.run (h : Rel f c l) (hrun : Run Locked.step WithoutWaits f xs f') :
    ∃ c', Run DoEvent.step UnlinksAlone c (observe Locked.step sectionSteps f xs) c' ∧
      observe DoEvent.step DoEvent.callEvents c (observe Locked.step sectionSteps f xs) =
        observe Locked.step callEvents f xs ∧ ∃ l', Rel f' c' l' := by
  refine hrun.simulated sectionSteps callEvents DoEvent.callEvents (fun f c => ∃ l, Rel f c l)
    ⟨l, h⟩ ?_
  rintro f x f' c ⟨l, hrel⟩ hok hst
  exact hrel.step hok hst

/-- Where nobody is in a close, nobody has validated an event for close. -/
theorem Rel.closes_apart {P : Kind → Bool} (h : Rel f c l) (hcalls : CallsIn P c)
    (hP : P .doeventclose = false) : ClosesApart f := by
  have hnone : ∀ t, (f.pc t).closes = none := by
    intro t
    have hrel := h.pcs t
    have hkind : (c.pc t).kind ≠ some .doeventclose := fun hk => by
      rw [hcalls t _ hk] at hP
      cases hP
    generalize f.pc t = q at hrel
    generalize c.pc t = p at hrel hkind
    cases q with
    | granted aim e =>
      cases aim with
      | close =>
        -- Of the read sections only that of close leads to the test of the queue.
        have hnext := hrel.1.next
        have hread := hrel.1.isRead
        cases p with
        | closeRead => exact absurd rfl hkind
        | waitRead | sigRead | chownRead | chmodRead | statRead =>
          simp only [DoEvent.next, orFail, Option.some.injEq, Prod.mk.injEq] at hnext
          split at hnext <;> simp [Aim.after] at hnext
        | infoRead => simp [DoEvent.next, Aim.after] at hnext
        | _ => cases hread
      | _ => rfl
    | closeActive | closeLock | closePrev | closeNext =>
      obtain ⟨rfl, _⟩ := hrel
      exact absurd rfl hkind
    | closeCount | closeWake => exact hrel.elim
    | stores todo k =>
      cases k with
      | setCondition => exact hrel.elim
      | _ => rfl
    | _ => rfl
  intro t u e ht
  rw [hnone t] at ht
  cases ht

/-- Runs whose calls are neither waits nor closes need no more than that. -/
theorem Rel.run_calls {P : Kind → Bool} {ok : State → Action → Prop} (h : Rel f c l)
    (hcalls : CallsIn P c) (hclose : P .doeventclose = false) (hwait : P .doeventwait = false)
    (hok : ∀ f x, ok f x → x.callIn P = true) (hrun : Run Locked.step ok f xs f') :
    ∃ c', Run DoEvent.step (fun _ x => x.callIn P = true) c (observe Locked.step sectionSteps f xs) c' ∧
      observe DoEvent.step DoEvent.callEvents c (observe Locked.step sectionSteps f xs) =
        observe Locked.step callEvents f xs ∧ CallsIn P c' ∧ ∃ l', Rel f' c' l' := by
  refine hrun.simulated sectionSteps callEvents DoEvent.callEvents
    (fun f c => CallsIn P c ∧ ∃ l, Rel f c l) ⟨hcalls, l, h⟩ ?_
  rintro f x f' c ⟨hcalls, l, hrel⟩ hx hst
  have hin := hok f x hx
  have hguard : WithoutWaits f x := by
    refine ⟨hrel.closes_apart hcalls hclose, ?_⟩
    rintro t k i rfl
    rw [show P .doeventwait = true from hin] at hwait
    cases hwait
  obtain ⟨c', hc, hnote, hrel'⟩ := hrel.step hguard hst
  have hc' : Run DoEvent.step (fun _ x => x.callIn P = true) c (sectionSteps f x) c' := hc.kept_guard hin
  exact ⟨c', hc', hnote, hc'.invariant (CallsIn P) hcalls fun _ _ _ hi hy hst => hi.step hy hst, hrel'⟩

theorem Rel.in_user (h : Rel f c l) (hpc : f.pc t = .user) : c.pc t = .user := by
  have ht := h.pcs t
  rw [hpc] at ht
  exact ht

theorem Rel.at_rest (h : Rel f c l) (hfree : ∀ t, (f.pc t).access ≠ .write) :
    c.mem = events f.node ∧ (links f.node).Ring allevents c.eventlist := by
  obtain ⟨hmem, hlist⟩ := h.free hfree
  exact ⟨hmem.symm, hlist ▸ h.inv.free hfree⟩

end

/-- For runs without a wait: leaving out the steps inside the sections gives a run of the
machine in which every section is one step, with the same calls, the same answers of `kmalloc`
and the same values returned and left in user memory, in the same order. While nobody writes
its memory and its event list are those of the ring. -/
theorem sections_are_atomic (node : Addr → Node) (user : Task → UserMem) (xs : List Action) (s : State)
    (hrun : Run step WithoutWaits (doeventInit node user) xs s) :
    ∃ ys c, Run DoEvent.step UnlinksAlone (DoEvent.doeventInit (events node) user) ys c ∧
      ys.Sublist xs ∧ ys.filter (fun x => !x.isRun) = xs.filter (fun x => !x.isRun) ∧
      observe DoEvent.step DoEvent.callEvents (DoEvent.doeventInit (events node) user) ys =
        observe step callEvents (doeventInit node user) xs ∧
      c.user = s.user ∧ c.inUse = s.inUse ∧ (∀ t, s.pc t = .user → c.pc t = .user) ∧
      ((∀ t, (s.pc t).access ≠ .write) →
        c.mem = events s.node ∧ (links s.node).Ring allevents c.eventlist) := by
  obtain ⟨c, hc, hnotes, l, hrel⟩ := (Rel.init node user).run hrun
  refine ⟨_, c, hc, observe_kept_sublist .., hrun.observe_kept_filter _ ?_, hnotes, hrel.user,
    hrel.inUse, fun t => hrel.in_user, hrel.at_rest⟩
  intro f x hx
  cases x with
  | run t => cases hx
  | _ => rfl

/-! ### A fixed run -/

def withoutWaitsTest (k : Task) (s : State) (x : Action) : Bool :=
  x.callIn (· != .doeventwait) && (List.range k).all fun t => (List.range k).all fun u =>
    t == u || (s.pc t).closes == none || (s.pc t).closes != (s.pc u).closes

theorem withoutWaits_of_test {s : State} {x : Action} {k : Task} (hi : s.idleFrom k)
    (h : withoutWaitsTest k s x = true) : WithoutWaits s x := by
  simp only [withoutWaitsTest, Bool.and_eq_true, List.all_eq_true, List.mem_range, Bool.or_eq_true,
    beq_iff_eq, bne_iff_ne] at h
  have hlt : ∀ v e, (s.pc v).closes = some e → v < k := by
    intro v e hv
    by_contra hge
    rw [hi v (Nat.le_of_not_lt hge)] at hv
    cases hv
  refine ⟨fun t u e ht hu => ?_, ?_⟩
  · rcases h.2 t (hlt t e ht) u (hlt u e hu) with (heq | hnone) | hne
    · exact heq
    · rw [hnone] at ht
      cases ht
    · exact absurd (ht.trans hu.symm) hne
  · rintro t c i rfl
    exact absurd h.1 Bool.false_ne_true

-- Task 0 closes the event that task 1 has found and not yet read, and is unlinking it when
-- the stat copies out what it has read.
def closeDuringStat : List Action :=
  openedRun ++ [.call 1 rootCred (.doeventstat 0 ⟨some 8, some 12, none, none⟩ none)] ++ runs 1 4 ++
    [.call 0 rootCred (.doeventclose 0)] ++ runs 0 5 ++ runs 1 5 ++ runs 0 4 ++ runs 1 2

theorem sections_are_atomic_overlapping :
    ∃ s ys c, Run step WithoutWaits boot closeDuringStat s ∧ (s.pc 0).access = .write ∧
      Run DoEvent.step UnlinksAlone (DoEvent.doeventInit (events fun _ => ⟨⟨0, 0, 0, 0, 0, 0, []⟩, 0, 0⟩)
        bootUser) ys c ∧ ys.Sublist closeDuringStat ∧ c.user = s.user ∧ c.pc 1 = .user := by
  have hsteps : (steps step (fun s x => decide (x.task < 2) && withoutWaitsTest 2 s x) boot
      closeDuringStat).map (fun s => (s.pc 0).access == .write && s.pc 1 == .user) = some true := by
    decide +kernel
  obtain ⟨s, hs, ht⟩ := Option.map_eq_some_iff.mp hsteps
  simp only [Bool.and_eq_true, beq_iff_eq] at ht
  have hrun : Run step WithoutWaits boot closeDuringStat s :=
    (run_of_idle (withoutWaitsTest 2) hs (fun _ _ => rfl) fun _ _ => withoutWaits_of_test).1
  obtain ⟨ys, c, hc, hsub, _, _, huser, _, hpc, _⟩ := sections_are_atomic _ _ closeDuringStat s hrun
  exact ⟨s, ys, c, hrun, ht.1, hc, hsub, huser, hpc 1 ht.2⟩

end DoEvent.Locked
