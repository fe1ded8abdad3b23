import DoEvent.Locked.Sequence

/-!
# Calls as operations on the sequence of live events

A call is followed from its beginning to its return, with the edits it makes on the way. An
open appends the record that it was given, a close takes out an event with its id or nothing,
and the other calls leave the sequence alone. With the walks of the searches this makes the
ring an implementation of the sequence.
-/

namespace DoEvent.Locked

open Shared Transition

/-! ### Calls from their beginning to their return -/

/-- What a task does in a call, and the signals that reach any task meanwhile. -/
def within (t : Task) : Action → Bool
  | .run u | .kmalloc u _ => u == t
  | .posix _ => true
  | .call .. | .deliver _ => false

def grants : Action → List Addr
  | .kmalloc _ (some a) => [a]
  | _ => []

/-- The records that `kmalloc` has handed out. -/
def allocated (xs : List Action) : List Addr := xs.flatMap grants

/-- Where an open is that has been given the records `got` and made the edits `h`. -/
def Opening (got : List Addr) (h : List Edit) : Pc → Prop
  | .openAlloc _ => got = [] ∧ h = []
  | .stores _ (.initListHead _ a) | .openLock _ a | .openPrev _ a => got = [a] ∧ h = []
  | .stores _ (.listAdd _ a) | .openLast _ a | .openLastid _ a _ => got = [a] ∧ h = [.add a]
  | .stores _ (.openFields a) | .openUnlock a | .openRet a => got = [a] ∧ h = [.add a]
  | .ret _ => h = got.map .add
  | .user => True
  | _ => False

/-- Where a close of `i` is that began with the events `l` and has made the edits `h`. -/
def Closing (node : Addr → Node) (l : List Addr) (i : Int32) (h : List Edit) : Pc → Prop
  | .searchLock k j _ | .searchFirst k j _ | .searchId k j _ | .searchNext k j _ =>
    (∃ c, k = .access .close c) ∧ j = i ∧ h = []
  | .checkUid aim _ e | .checkUidFlag aim _ e | .checkGid aim _ e | .checkGidFlag aim _ e =>
    aim = .close ∧ (node e).id = i ∧ h = []
  | .granted aim e => aim = .close ∧ (node e).id = i ∧ h = []
  | .closeActive e | .closeLock e _ | .closeCount e _ => (node e).id = i ∧ h = []
  | .stores _ (.setCondition e _) | .closeWake e _ | .closePrev e _ => (node e).id = i ∧ h = []
  | .closeNext e _ _ => (node e).id = i ∧ h = []
  | .stores _ (.listDelInit e _) | .closeUnlock e _ | .closeKfree e _ =>
    e ∈ l ∧ (node e).id = i ∧ h = [.remove e]
  | .failUnlock => h = []
  | .ret r => r = -1 ∧ h = [] ∨ 0 ≤ r ∧ ∃ e ∈ l, (node e).id = i ∧ h = [.remove e]
  | .user => True
  | _ => False

def Lookup.closes : Lookup → Bool
  | .access .close _ => true
  | _ => false

/-- The program counters from which a call may still change the list. -/
def Pc.mayEdit : Pc → Bool
  | .openAlloc _ | .stores _ (.initListHead ..) | .openLock .. | .openPrev .. => true
  | .searchLock k .. | .searchFirst k .. | .searchId k .. | .searchNext k .. => k.closes
  | .checkUid aim .. | .checkUidFlag aim .. | .checkGid aim .. | .checkGidFlag aim .. => aim == .close
  | .granted aim _ => aim == .close
  | .closeActive _ | .closeLock .. | .closeCount .. | .stores _ (.setCondition ..) => true
  | .closeWake .. | .closePrev .. | .closeNext .. => true
  | _ => false

section
variable {s s' m : State} {l : List Addr} {t : Task} {q p : Pc} {e : Effect} {x : Action}
  {got : List Addr} {h : List Edit} {i : Int32} {node : Addr → Node}

theorem Opening.next (hq : Opening got h (s.pc t)) (hnext : next s t (s.pc t) = some (e, p)) :
    Opening got (h ++ edits s (.run t)) p := by
  rw [edits]
  generalize s.pc t = q at hq hnext ⊢
  cases q with
  | stores todo k =>
    cases todo <;>
    · cases hnext
      simp only [List.append_nil]
      cases k <;> exact hq
  | openLock c a | openLast c a | openLastid c a last | openUnlock a =>
    cases hnext
    simp only [List.append_nil]
    exact hq
  | openPrev c a =>
    cases hnext
    obtain ⟨rfl, rfl⟩ := hq
    exact ⟨rfl, rfl⟩
  | openRet a =>
    cases hnext
    obtain ⟨rfl, rfl⟩ := hq
    rfl
  | ret v =>
    cases hnext
    trivial
  | openAlloc | user => cases hnext
  | _ => cases hq

theorem Closing.loopTest {c : Cred} (pos : Addr) :
    Closing node l i [] ((Lookup.access .close c).loopTest i none pos) := by
  rw [Lookup.loopTest]
  split_ifs
  · rfl
  · exact ⟨⟨c, rfl⟩, rfl, rfl⟩

theorem Closing.next (hq : Closing node l i h (s.pc t)) (hids : ∀ a, (s.node a).id = (node a).id)
    (hok : h = [] → PcOk s.node l (s.pc t)) (hnext : next s t (s.pc t) = some (e, p)) :
    Closing node l i (h ++ edits s (.run t)) p := by
  rw [edits]
  generalize s.pc t = q at hq hok hnext ⊢
  cases q with
  | stores todo k =>
    cases todo <;>
    · cases hnext
      simp only [List.append_nil]
      cases k <;> exact hq
  | searchLock k j w =>
    cases hnext
    simp only [List.append_nil]
    exact hq
  | searchFirst k j w =>
    obtain ⟨⟨c, rfl⟩, rfl, rfl⟩ := hq
    have hnull : w = none := hok rfl
    cases hnext
    rw [hnull]
    exact .loopTest _
  | searchId k j pos =>
    obtain ⟨⟨c, rfl⟩, rfl, rfl⟩ := hq
    cases hnext
    split_ifs with hid
    · have hfound : (node pos).id = j := (hids pos).symm.trans hid
      simp only [Lookup.found, Lookup.exit]
      split_ifs <;> exact ⟨rfl, hfound, rfl⟩
    · exact ⟨⟨c, rfl⟩, rfl, rfl⟩
  | searchNext k j pos =>
    obtain ⟨⟨c, rfl⟩, rfl, rfl⟩ := hq
    cases hnext
    exact .loopTest _
  | checkUid aim c a | checkUidFlag aim c a | checkGid aim c a | checkGidFlag aim c a =>
    cases hnext
    simp only [List.append_nil]
    split_ifs <;> first | exact hq | exact hq.2.2
  | granted aim a =>
    obtain ⟨rfl, hid⟩ := hq
    cases hnext
    simp only [List.append_nil]
    exact hid
  | closeLock a n | closeCount a n =>
    cases hnext
    simp only [List.append_nil]
    split_ifs <;> exact hq
  | closeActive a | closeWake a n | closePrev a n | closeUnlock a n =>
    cases hnext
    simp only [List.append_nil]
    exact hq
  | closeNext a n prev =>
    cases hnext
    obtain ⟨hid, rfl⟩ := hq
    exact ⟨(hok rfl).1, hid, rfl⟩
  | closeKfree a n =>
    cases hnext
    simp only [List.append_nil]
    exact .inr ⟨Int.natCast_nonneg n, a, hq⟩
  | failUnlock =>
    cases hnext
    simp only [List.append_nil]
    exact .inl ⟨rfl, hq⟩
  | ret v =>
    cases hnext
    trivial
  | user => cases hnext
  | _ => cases hq

theorem Lookup.exit_mayEdit {k : Lookup} (hk : k.closes = false) (i : Int32) (w : Option Addr) :
    (k.exit i w).mayEdit = false := by
  cases k with
  | access aim c =>
    cases w with
    | none => rfl
    | some a =>
      cases aim with
      | close => cases hk
      | _ =>
        simp only [Lookup.exit]
        split_ifs <;> rfl
  | change c v =>
    cases w with
    | none => rfl
    | some a =>
      simp only [Lookup.exit]
      split_ifs <;> rfl
  | stat b v => cases w <;> rfl

theorem Lookup.loopTest_mayEdit {k : Lookup} (hk : k.closes = false) (i : Int32) (w : Option Addr)
    (pos : Addr) : (k.loopTest i w pos).mayEdit = false := by
  rw [Lookup.loopTest]
  split_ifs
  · exact Lookup.exit_mayEdit hk i w
  · exact hk

theorem infoTest_mayEdit (num : Int32) (r : Option ℕ) (arr : List Int32) (check : Int32) (pos : Addr) :
    (infoTest num r arr check pos).mayEdit = false := by
  rw [infoTest]
  split_ifs <;> rfl

/-- A call that cannot change the list any more stays so. -/
theorem mayEdit_next (hnext : Locked.next s t q = some (e, p)) (hq : q.mayEdit = false) :
    p.mayEdit = false := by
  cases q with
  | user | openAlloc => cases hnext
  | stores todo k =>
    cases todo <;>
    · cases hnext
      cases k <;> first | rfl | cases hq
  | searchFirst k i w =>
    cases hnext
    exact Lookup.loopTest_mayEdit hq i w _
  | searchNext k i pos =>
    cases hnext
    exact Lookup.loopTest_mayEdit hq i none _
  | searchId k i pos =>
    cases hnext
    split_ifs
    · cases k with
      | stat => rfl
      | access aim c => exact Lookup.exit_mayEdit hq i (some pos)
      | change c v => exact Lookup.exit_mayEdit (k := .change c v) rfl i (some pos)
    · exact hq
  | checkUid aim | checkUidFlag aim | checkGid aim | checkGidFlag aim =>
    cases hnext
    split_ifs <;> first | exact hq | rfl
  | granted aim a =>
    cases hnext
    cases aim with
    | close => cases hq
    | _ => rfl
  | statProbe i b junk =>
    cases hnext
    split
    · rfl
    · split_ifs <;> rfl
  | infoFirst num r =>
    cases hnext
    exact infoTest_mayEdit ..
  | infoNext num r arr check pos =>
    cases hnext
    exact infoTest_mayEdit ..
  | waitTest | waitRetest | waitSignal | sigActive | sigCount | checkOwner | statUnlock | infoProbe =>
    cases hnext
    split_ifs <;> rfl
  | _ =>
    cases hnext
    first | exact hq | rfl | cases hq

theorem edits_of_mayEdit (hq : (s.pc t).mayEdit = false) : edits s (.run t) = [] := by
  rw [edits]
  cases hpc : s.pc t with
  | openPrev | closeNext =>
    rw [hpc] at hq
    cases hq
  | _ => rfl

theorem within_step (hx : within t x = true) (h : step s x = some s') :
    (∃ e p m, x = .run t ∧ Locked.next s t (s.pc t) = some (e, p) ∧
      apply s t e = some m ∧ s' = m.goto t p) ∨
    (∃ c, s.pc t = .openAlloc c ∧ (x = .kmalloc t none ∧ s' = s.goto t (.ret (-1)) ∨
      ∃ a, x = .kmalloc t (some a) ∧ s'.pc t = .stores (initListHead a) (.initListHead c a) ∧
        s'.node = s.node)) ∨
    ∃ u, x = .posix u ∧ s'.pc = s.pc ∧ s'.node = s.node := by
  cases Move.of_step h with
  | call | deliver => cases hx
  | nomem u c hpc =>
    obtain rfl : u = t := by simpa [within] using hx
    exact .inr (.inl ⟨c, hpc, .inl ⟨rfl, rfl⟩⟩)
  | kmalloc u c a hpc hfree =>
    obtain rfl : u = t := by simpa [within] using hx
    exact .inr (.inl ⟨c, hpc, .inr ⟨a, rfl, goto_pc, rfl⟩⟩)
  | run u e p m hrq hnext happly =>
    obtain rfl : u = t := by simpa [within] using hx
    exact .inl ⟨e, p, m, rfl, hnext, happly, rfl⟩
  | posix u => exact .inr (.inr ⟨u, rfl, rfl, rfl⟩)

theorem Opening.step (hq : Opening got h (s.pc t)) (hx : within t x = true)
    (hst : Locked.step s x = some s') : Opening (got ++ grants x) (h ++ edits s x) (s'.pc t) := by
  rcases within_step hx hst with ⟨e, p, m, rfl, hnext, _, rfl⟩ | ⟨c, hpc, hm⟩ | ⟨u, rfl, hpc, _⟩
  · rw [goto_pc]
    exact (List.append_nil got).symm ▸ hq.next hnext
  · rw [hpc] at hq
    obtain ⟨rfl, rfl⟩ := hq
    rcases hm with ⟨rfl, rfl⟩ | ⟨a, rfl, hpc', _⟩
    · rw [goto_pc]
      rfl
    · rw [hpc']
      exact ⟨rfl, rfl⟩
  · rw [hpc]
    exact (List.append_nil got).symm ▸ (List.append_nil h).symm ▸ hq

/-- A close at work: the ids are those of its beginning, and it is to store none. -/
structure CloseRun (node : Addr → Node) (l : List Addr) (i : Int32) (t : Task) (h : List Edit)
    (s : State) : Prop where
  ids : ∀ a, (s.node a).id = (node a).id
  todo : ∀ w ∈ (s.pc t).todo, w.2.isId = false
  stage : Closing node l i h (s.pc t)

theorem CloseRun.store {w : Addr × Store} (hc : CloseRun node l i t h s)
    (hnext : next s t (s.pc t) = some (.store w, p)) : w.2.isId = false := by
  rcases next_store hnext with ⟨todo, k, hpc⟩ | hnot
  · have hstage := hc.stage
    refine hc.todo w ?_
    rw [hpc] at hstage ⊢
    cases k with
    | setCondition | listDelInit => exact List.mem_cons_self ..
    | _ => cases hstage
  · exact hnot

theorem CloseRun.owes (hc : CloseRun node l i t h s) (hnext : next s t (s.pc t) = some (e, p)) :
    ∀ w ∈ p.todo, w.2.isId = false := by
  intro w hw
  refine Bool.eq_false_iff.mpr fun hid => ?_
  rcases next_ids hnext hw hid with hold | ⟨c, last, hpc⟩
  · rw [hc.todo w hold] at hid
    cases hid
  · have hstage := hc.stage
    rw [hpc] at hstage
    cases hstage

theorem CloseRun.step (hc : CloseRun node l i t h s) (hi : SeqInv s (h.foldl Edit.act l))
    (hx : within t x = true) (hst : Locked.step s x = some s') :
    CloseRun node l i t (h ++ edits s x) s' := by
  rcases within_step hx hst with ⟨e, p, m, rfl, hnext, happly, rfl⟩ | ⟨c, hpc, _⟩ | ⟨u, rfl, hpc, hnode⟩
  · refine ⟨fun a => ?_, by rw [goto_pc]; exact hc.owes hnext, ?_⟩
    · have hkeep : (m.node a).id = (s.node a).id := by
        refine apply_id happly fun w he hid => ?_
        rw [hc.store (he ▸ hnext)] at hid
        cases hid
      exact hkeep.trans (hc.ids a)
    · rw [goto_pc]
      refine hc.stage.next hc.ids (fun hnil => ?_) hnext
      rw [hnil] at hi
      exact hi.list.pcs t
  · have hstage := hc.stage
    rw [hpc] at hstage
    cases hstage
  · refine ⟨fun a => by rw [hnode, hc.ids a], by rw [hpc]; exact hc.todo, ?_⟩
    have hnone : edits s (.posix u) = [] := rfl
    rw [hpc, hnone, List.append_nil]
    exact hc.stage

theorem entry_closing (c : Cred) (i : Int32) : Closing node l i [] (entry c (.doeventclose i)) := by
  simp only [entry]
  split_ifs
  · exact .inl ⟨rfl, rfl⟩
  · exact ⟨⟨c, rfl⟩, rfl, rfl⟩

theorem entry_mayEdit (c : Cred) {k : Call} (hopen : k ≠ .doeventopen)
    (hclose : ∀ i, k ≠ .doeventclose i) : (entry c k).mayEdit = false := by
  cases k with
  | doeventopen => exact absurd rfl hopen
  | doeventclose i => exact absurd rfl (hclose i)
  | _ =>
    simp only [entry]
    (try split_ifs) <;> rfl

variable {c : Cred} {k : Call} {zs : List Action}

/-- The beginning of a call, which leaves the list as it is. -/
theorem SeqInv.call (hi : SeqInv s l) (hrun : Run Locked.step OneAtATime s (.call t c k :: zs) s') :
    SeqInv (s.goto t (entry c k)) l ∧ Run Locked.step OneAtATime (s.goto t (entry c k)) zs s' ∧
      observe Locked.step edits s (.call t c k :: zs) =
        observe Locked.step edits (s.goto t (entry c k)) zs := by
  cases hrun with
  | cons hok hst hrest =>
    have hbegun := hi.step hok hst
    cases Move.of_step hst with
    | call t c k hpc =>
      refine ⟨hbegun, hrest, ?_⟩
      rw [observe, hst, Option.elim_some]
      rfl

variable (hi : SeqInv s l) (hown : ∀ x ∈ zs, within t x = true)
include hi hown

theorem SeqInv.opened (hrun : Run Locked.step OneAtATime s (.call t c .doeventopen :: zs) s') :
    Opening (allocated zs) (observe Locked.step edits s (.call t c .doeventopen :: zs)) (s'.pc t) := by
  obtain ⟨_, hrest, hobs⟩ := hi.call hrun
  rw [hobs, allocated, ← hrest.observe_action]
  refine (hrest.restrict _ hown).observed_two edits (fun _ x => grants x)
    (fun h got s => Opening got h (s.pc t)) (l := []) [] ?_ ?_
  · rw [goto_pc]
    exact ⟨rfl, rfl⟩
  · exact fun h got s x s' hq hx hst => hq.step hx.2 hst

theorem SeqInv.closed (hrun : Run Locked.step OneAtATime s (.call t c (.doeventclose i) :: zs) s') :
    Closing s.node l i (observe Locked.step edits s (.call t c (.doeventclose i) :: zs)) (s'.pc t) := by
  obtain ⟨hbegun, hrest, hobs⟩ := hi.call hrun
  rw [hobs]
  have hclose := (hrest.restrict _ hown).observed edits
    (fun h m => SeqInv m (h.foldl Edit.act l) ∧ CloseRun s.node l i t h m) (l := []) ?_ ?_
  · exact hclose.2.stage
  · refine ⟨hbegun, fun a => rfl, ?_, ?_⟩
    · rw [goto_pc, (entry_holds c _).todo]
      exact List.forall_mem_nil _
    · rw [goto_pc]
      exact entry_closing c i
  · intro h m x m' hm hx hst
    refine ⟨?_, hm.2.step hm.1 hx.2 hst⟩
    rw [List.foldl_append]
    exact hm.1.step hx.1 hst

theorem SeqInv.unedited (hrun : Run Locked.step OneAtATime s (.call t c k :: zs) s')
    (hopen : k ≠ .doeventopen) (hclose : ∀ i, k ≠ .doeventclose i) :
    observe Locked.step edits s (.call t c k :: zs) = [] := by
  obtain ⟨_, hrest, hobs⟩ := hi.call hrun
  rw [hobs]
  have hquiet := (hrest.restrict _ hown).observed edits
    (fun h m => h = [] ∧ (m.pc t).mayEdit = false) (l := []) ?_ ?_
  · exact hquiet.1
  · rw [goto_pc]
    exact ⟨rfl, entry_mayEdit c hopen hclose⟩
  · intro h m x m' hm hx hst
    obtain ⟨rfl, hedit⟩ := hm
    rcases within_step hx.2 hst with ⟨e, p, n, rfl, hnext, _, rfl⟩ | ⟨c, hpc, _⟩ | ⟨u, rfl, hpc, _⟩
    · rw [edits_of_mayEdit hedit, goto_pc]
      exact ⟨rfl, mayEdit_next hnext hedit⟩
    · rw [hpc] at hedit
      cases hedit
    · rw [hpc]
      exact ⟨rfl, hedit⟩

end

/-! ### The ring refines the sequence -/

/-- The record that a call takes for an event of the list while it holds the lock. -/
def Pc.event : Pc → Option Addr
  | .searchId _ _ e | .searchNext _ _ e => some e
  | .infoId _ _ _ _ e | .infoNext _ _ _ _ e => some e
  | .checkUid _ _ e | .checkUidFlag _ _ e | .checkGid _ _ e | .checkGidFlag _ _ e => some e
  | .granted _ e | .checkOwner _ _ e | .changeFound _ e => some e
  | .statUid _ _ _ e | .statGid _ _ _ e | .statUidFlag _ _ _ e | .statGidFlag _ _ _ e => some e
  | .statUnlock _ _ _ w => w
  | .closeCount e _ | .stores _ (.setCondition e _) | .closeWake e _ => some e
  | .closePrev e _ | .closeNext e _ _ => some e
  | _ => none

theorem PcOk.event_mem {node : Addr → Node} {l : List Addr} {q : Pc} {e : Addr} (h : PcOk node l q)
    (he : q.event = some e) : l = [] ∨ e ∈ l := by
  cases q with
  | stores todo k =>
    cases k with
    | setCondition a n =>
      cases he
      exact .inr h
    | _ => cases he
  | checkOwner | changeFound =>
    cases he
    exact h
  | statUnlock i b v w => exact (h e he).imp_right And.left
  | closeNext | statUid | statGid | statUidFlag | statGidFlag =>
    cases he
    exact .inr h.1
  | infoId | infoNext =>
    cases he
    obtain ⟨xs, ys, rfl, _⟩ := h
    exact .inr (by simp)
  | searchId | searchNext | checkUid | checkUidFlag | checkGid | checkGidFlag | granted | closeCount
  | closeWake | closePrev =>
    cases he
    exact .inr h
  | _ => cases he

/-- A search over an empty list starts with a cursor that is NULL. -/
def CursorSet (s : State) (x : Action) : Prop :=
  ∀ t k i w, x = .run t → s.pc t = .searchFirst k i w → (s.node allevents).next = allevents → w = none

def TidyStep (s : State) (x : Action) : Prop := OneAtATime s x ∧ CursorSet s x

section
variable {s s' : State} {l : List Addr} {t : Task} {q p : Pc} {e : Effect} {x : Action}

theorem event_of_parked (h : q.parked = true) : q.event = none := by
  cases q with
  | user | ret | waitAsleep => rfl
  | _ => cases h

theorem entry_event (c : Cred) (k : Call) : (entry c k).event = none := by
  cases k <;> simp only [entry] <;> (try split_ifs) <;> rfl

/-- Over an empty list no step of the source comes by an event, unless it starts out with one. -/
theorem event_next (hnext : next s t q = some (e, p)) (hok : PcOk s.node [] q) (hq : q.event = none)
    (hring : q.access ≠ .none → (links s.node).Ring allevents [])
    (hcursor : ∀ k i w, q = .searchFirst k i w → w = none) : p.event = none := by
  cases q with
  | user | openAlloc => cases hnext
  | searchFirst k i w =>
    obtain rfl := hcursor k i w rfl
    have hfirst : (s.node allevents).next = allevents := (hring fun ha => by cases ha).next_head
    cases hnext
    rw [Lookup.loopTest, if_pos hfirst]
    cases k <;> rfl
  | infoFirst num r =>
    have hfirst : (s.node allevents).next = allevents := (hring fun ha => by cases ha).next_head
    cases hnext
    rw [infoTest, if_pos hfirst]
    rfl
  | stores todo k =>
    cases todo <;>
    · cases hnext
      cases k <;> first | rfl | cases hok
  | closeLock | closeActive => cases hok
  | statProbe i b junk =>
    cases hnext
    split
    · rfl
    · split_ifs <;> rfl
  | waitTest | waitRetest | waitSignal | sigActive | sigCount | infoProbe | statUnlock =>
    cases hnext
    split_ifs <;> rfl
  | searchId | searchNext | infoId | infoNext | checkUid | checkUidFlag | checkGid | checkGidFlag
  | granted | checkOwner | changeFound | statUid | statGid | statUidFlag | statGidFlag | closeCount
  | closeWake | closePrev | closeNext => cases hq
  | _ =>
    cases hnext
    rfl

/-- While the list is empty no task has an event in hand. -/
theorem SeqInv.no_event_step (hi : SeqInv s l) (hev : l = [] → ∀ t, (s.pc t).event = none)
    (hx : TidyStep s x) (hst : Locked.step s x = some s')
    (hnil : (edits s x).foldl Edit.act l = []) (u : Task) : (s'.pc u).event = none := by
  have hmove := Move.of_step hst
  by_cases hu : u = x.task
  · subst hu
    cases hmove with
    | call t c k hpc =>
      rw [Action.task, goto_pc]
      exact entry_event c k
    | nomem | kmalloc =>
      rw [Action.task, goto_pc]
      rfl
    | posix | deliver => exact hev hnil _
    | run t e p m hrq hnext happly =>
      rw [Action.task, goto_pc]
      by_cases hplain : (s.pc t).plain = true
      · rw [edits_of_plain hplain] at hnil
        have hnil' : l = [] := hnil
        subst hnil'
        refine event_next hnext (hi.list.pcs t) (hev rfl t) (hi.list.ring_held (plain_todo hplain)) ?_
        intro k i w hpc
        have hring := hi.list.ring_held (t := t) (by rw [hpc]; rfl) (by rw [hpc]; simp [Pc.access])
        exact hx.2 t k i w rfl hpc hring.next_head
      · rw [edits] at hnil
        generalize hpc : s.pc t = q at hnext hplain hnil
        cases q with
        | openPrev c a => simp [Edit.act] at hnil
        | closeNext | closeKfree =>
          cases hnext
          rfl
        | stores todo k =>
          cases todo with
          | nil => exact absurd rfl hplain
          | cons w todo =>
            have hq : (Pc.stores (w :: todo) k).event = none := by
              rw [← hpc]
              exact hev hnil t
            cases hnext
            cases k <;> exact hq
        | _ => exact absurd rfl hplain
  · rw [hmove.pc_of_ne hu]
    rcases hx.1 with ⟨v, rfl⟩ | hparked
    · exact hev hnil u
    · exact event_of_parked (hparked u hu)

end

theorem foldl_add (l got : List Addr) : (got.map Edit.add).foldl Edit.act l = l ++ got := by
  induction got generalizing l with
  | nil => rw [List.map_nil, List.foldl_nil, List.append_nil]
  | cons a got ih =>
    rw [List.map_cons, List.foldl_cons, ih, Edit.act, List.append_assoc, List.singleton_append]

theorem Inv.last_eq_sentinel {s : State} {l : List Addr} (hi : Inv s l) :
    l.getLast?.getD allevents = allevents ↔ l = [] := by
  cases hlast : l.getLast? with
  | none => exact iff_of_true rfl (List.getLast?_eq_none_iff.mp hlast)
  | some a =>
    have hmem : a ∈ l := List.mem_of_getLast? hlast
    refine iff_of_false (hi.ne_sentinel hmem) ?_
    rintro rfl
    cases hmem

/-- The sequence of live events after the actions `xs` from boot. -/
def live (node : Addr → Node) (user : Task → UserMem) (xs : List Action) : List Addr :=
  (observe step edits (doeventInit node user) xs).foldl Edit.act []

theorem seqInv_reachable {node : Addr → Node} {user : Task → UserMem} {xs : List Action} {s : State}
    (h : Run step OneAtATime (doeventInit node user) xs s) : SeqInv s (live node user xs) :=
  SeqInv.run (.init node user) h

theorem live_append {node : Addr → Node} {user : Task → UserMem} {xs ys : List Action} {s : State}
    (h : Run step OneAtATime (doeventInit node user) xs s) :
    live node user (xs ++ ys) = (observe step edits s ys).foldl Edit.act (live node user xs) := by
  rw [live, h.observe_append, List.foldl_append]
  rfl

theorem no_event_reachable {node : Addr → Node} {user : Task → UserMem} {xs : List Action} {s : State}
    (h : Run step TidyStep (doeventInit node user) xs s) (hnil : live node user xs = []) (t : Task) :
    (s.pc t).event = none := by
  have hrun := h.observed edits
    (fun h s => SeqInv s (h.foldl Edit.act []) ∧ (h.foldl Edit.act [] = [] → ∀ t, (s.pc t).event = none))
    (l := []) ⟨.init node user, fun _ _ => rfl⟩ ?_
  · exact hrun.2 hnil t
  · intro h s x s' hi hx hst
    rw [List.foldl_append]
    exact ⟨hi.1.step hx.1 hst, hi.1.no_event_step hi.2 hx hst⟩

/-- While the calls are made one at a time: the links in memory, with the stores that a writer
still owes, thread the live events in the order in which they were opened; the sentinel keeps
the id -1 and no call takes it for an event; the searches end and find an event with their id
exactly if one is live; open appends, having read the id of the last event or of the sentinel;
close takes out an event with its id. Of the searches over an empty list this is said as far as
they start with a cursor that is NULL. -/
theorem ring_refines_live_events (node : Addr → Node) (user : Task → UserMem) (xs : List Action)
    (s : State) (hrun : Run step OneAtATime (doeventInit node user) xs s) :
    ((∀ u, (s.pc u).access ≠ .write) → Threads s.node (live node user xs)) ∧
    (∀ u, (s.pc u).access = .write →
      Threads (storeAll s.node (s.pc u).todo) (live node user xs)) ∧
    (s.node allevents).id = -1 ∧
    (∀ t e, (s.pc t).event = some e →
      live node user xs ≠ [] ∨ Run step TidyStep (doeventInit node user) xs s →
      e ∈ live node user xs ∧ e ≠ allevents) ∧
    (∀ t k i w, s.pc t = .searchFirst k i w → live node user xs ≠ [] ∨ w = none →
      ∃ n, n ≤ 2 * (live node user xs).length + 1 ∧
        Run step OneAtATime s (runs t n) (s.goto t (k.searched s.node i (live node user xs)))) ∧
    (∀ t num r, s.pc t = .infoFirst num r →
      ∃ n arr check, n ≤ 2 * (live node user xs).length + 1 ∧
        (arr, check) = infoLoop (events s.node) num r.isSome (live node user xs) (infoArray num) 0 ∧
        Run step OneAtATime s (runs t n) (s.goto t (.infoUnlock num r arr check))) ∧
    ∀ t c k zs s', Run step OneAtATime s (.call t c k :: zs) s' →
      (∀ x ∈ zs, within t x = true) →
      (k = .doeventopen →
        (∀ c' a last, s'.pc t = .openLastid c' a last →
          live node user (xs ++ .call t c k :: zs) = live node user xs ++ [a] ∧
          last = (live node user xs).getLast?.getD allevents ∧
          (last = allevents ↔ live node user xs = [])) ∧
        ∀ v, s'.pc t = .ret v →
          live node user (xs ++ .call t c k :: zs) = live node user xs ++ allocated zs) ∧
      (∀ i, k = .doeventclose i → ∀ v, s'.pc t = .ret v →
        v = -1 ∧ live node user (xs ++ .call t c k :: zs) = live node user xs ∨
        0 ≤ v ∧ ∃ e ∈ live node user xs, (s.node e).id = i ∧
          live node user (xs ++ .call t c k :: zs) = (live node user xs).erase e) ∧
      (k ≠ .doeventopen → (∀ i, k ≠ .doeventclose i) →
        live node user (xs ++ .call t c k :: zs) = live node user xs) := by
  have hi := seqInv_reachable hrun
  refine ⟨?_, ?_, hi.sentinel, ?_, ?_, ?_, ?_⟩
  · exact fun hfree => threads_of_ring (hi.list.free hfree)
  · exact fun u hw => threads_of_ring (hi.list.settled u hw)
  · intro t e he hset
    have hne : live node user xs ≠ [] := by
      rcases hset with hne | htidy
      · exact hne
      · intro hnil
        rw [no_event_reachable htidy hnil t] at he
        cases he
    have hmem := ((hi.list.pcs t).event_mem he).resolve_left hne
    exact ⟨hmem, hi.list.ne_sentinel hmem⟩
  · exact fun t k i w hpc hcursor => hi.search hpc hcursor
  · intro t num r hpc
    obtain ⟨n, hn, hinfo⟩ := hi.info hpc
    exact ⟨n, _, _, hn, rfl, hinfo⟩
  · intro t c k zs s' hcall hown
    have hi' := hi.run hcall
    rw [live_append hrun]
    refine ⟨?_, ?_, ?_⟩
    · rintro rfl
      have hopen := hi.opened hown hcall
      constructor
      · intro c' a last hpc
        have hok := hi'.list.pcs t
        rw [hpc] at hok hopen
        obtain ⟨_, hedit⟩ := hopen
        rw [hedit] at hok ⊢
        obtain ⟨before, hbefore, rfl⟩ := hok
        obtain ⟨rfl, _⟩ := List.append_inj' hbefore rfl
        exact ⟨rfl, rfl, hi.list.last_eq_sentinel⟩
      · intro v hpc
        rw [hpc] at hopen
        have hedits : observe step edits s (.call t c .doeventopen :: zs) = (allocated zs).map .add :=
          hopen
        rw [hedits, foldl_add]
    · rintro i rfl v hpc
      have hclose := hi.closed hown hcall
      rw [hpc] at hclose
      rcases hclose with ⟨hv, hedit⟩ | ⟨hv, e, he, hid, hedit⟩
      · exact .inl ⟨hv, by rw [hedit]; rfl⟩
      · exact .inr ⟨hv, e, he, hid, by rw [hedit]; rfl⟩
    · intro hopen hclose
      rw [hi.unedited hown hcall hopen hclose]
      rfl

/-! ### Fixed runs -/

def oneAtATimeTest (k : Task) (s : State) (x : Action) : Bool :=
  (List.range k).all fun u => u == x.task || (s.pc u).parked

theorem oneAtATime_of_idle {s : State} {x : Action} {k : Task} (hi : s.idleFrom k)
    (h : oneAtATimeTest k s x = true) : OneAtATime s x := by
  refine .inr fun u hu => ?_
  simp only [oneAtATimeTest, List.all_eq_true, List.mem_range, Bool.or_eq_true, beq_iff_eq] at h
  by_cases hk : u < k
  · exact (h u hk).resolve_left hu
  · rw [hi u (Nat.le_of_not_lt hk)]
    rfl

theorem run_of_oneAtATime (s : State) (xs : List Action) (k : Task) (test : State → Bool)
    (hs : s.idleFrom k)
    (h : (steps step (fun s x => decide (x.task < k) && oneAtATimeTest k s x) s xs).map test = some true) :
    ∃ s', Run step OneAtATime s xs s' ∧ s'.idleFrom k ∧ test s' = true := by
  obtain ⟨s', hsteps, ht⟩ := Option.map_eq_some_iff.mp h
  have hrun : Run step OneAtATime s xs s' ∧ s'.idleFrom k :=
    run_of_idle (oneAtATimeTest k) hsteps hs fun _ _ => oneAtATime_of_idle
  exact ⟨s', hrun.1, hrun.2, ht⟩

/-- Three opens, and a close of the event in the middle. -/
def closeMiddle : List Action :=
  ([1, 2, 3].flatMap fun a => [.call 0 rootCred .doeventopen, .kmalloc 0 (some a)] ++ runs 0 23) ++
    [.call 0 rootCred (.doeventclose 1)] ++ runs 0 18

/-- The record of the closed event is handed out again. -/
def reopened : List Action := [.kmalloc 0 (some 2)] ++ runs 0 22

theorem ring_refines_live_events_reopened :
    ∃ s s', Run step OneAtATime boot closeMiddle s ∧ Threads s.node [1, 3] ∧
      Run step OneAtATime s (.call 0 rootCred .doeventopen :: reopened) s' ∧ s'.pc 0 = .ret 3 ∧
      live (fun _ => ⟨⟨0, 0, 0, 0, 0, 0, []⟩, 0, 0⟩) bootUser
        (closeMiddle ++ .call 0 rootCred .doeventopen :: reopened) = [1, 3] ++ [2] := by
  have hlive : live (fun _ => ⟨⟨0, 0, 0, 0, 0, 0, []⟩, 0, 0⟩) bootUser closeMiddle = [1, 3] := by
    decide +kernel
  obtain ⟨s, hrun, hidle, ht⟩ := run_of_oneAtATime boot closeMiddle 1
    (fun s => s.pc 0 == .user &&
      (steps step (fun s x => decide (x.task < 1) && oneAtATimeTest 1 s x) s
        (.call 0 rootCred .doeventopen :: reopened)).map (fun s' => s'.pc 0 == .ret 3) == some true)
    (fun _ _ => rfl) (by decide +kernel)
  simp only [Bool.and_eq_true, beq_iff_eq] at ht
  obtain ⟨s', hrun', _, hret⟩ := run_of_oneAtATime s _ 1 (fun s' => s'.pc 0 == .ret 3) hidle ht.2
  have hret' : s'.pc 0 = .ret 3 := beq_iff_eq.mp hret
  have hfree : ∀ u, (s.pc u).access ≠ .write := by
    intro u
    have hu : s.pc u = .user := by
      match u with
      | 0 => exact ht.1
      | u + 1 => exact hidle (u + 1) (Nat.le_add_left 1 u)
    rw [hu]
    decide
  obtain ⟨hthreads, _, _, _, _, _, hcalls⟩ := ring_refines_live_events _ _ closeMiddle s hrun
  have hopened := ((hcalls 0 rootCred .doeventopen reopened s' hrun' (by decide)).1 rfl).2 3 hret'
  rw [hlive] at hthreads hopened
  exact ⟨s, s', hrun, hthreads hfree, hrun', hret', hopened⟩

/-- Before the first open, a chown by root whose cursor happens to hold the address of
`allevents` leaves its search with the sentinel for an event. -/
theorem chown_takes_sentinel_for_event :
    ¬ ∀ node user xs s, Run step OneAtATime (doeventInit node user) xs s →
      ∀ t e, (s.pc t).event = some e → e ∈ live node user xs ∧ e ≠ allevents := by
  intro hclaim
  obtain ⟨s, hrun, _, ht⟩ := run_of_oneAtATime boot
    (.call 0 rootCred (.doeventchown 3 5 6 (some allevents)) :: runs 0 2) 1
    (fun s => s.pc 0 == .changeFound (.owner 5 6) allevents) (fun _ _ => rfl) (by decide +kernel)
  have hpc : s.pc 0 = .changeFound (.owner 5 6) allevents := beq_iff_eq.mp ht
  exact (hclaim _ _ _ s hrun 0 allevents (by rw [hpc]; rfl)).2 rfl

end DoEvent.Locked
