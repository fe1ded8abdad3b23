import DoEvent.History
import DoEvent.Pointers
import DoEvent.Locked.Invariant

/-!
# Sections as single steps

How a state of the machine with single loads and stores stands for a state of the machine in
which a section is one step. A read section is made there when the lock is released. The
section of open is made with the store of the new id, the first field that others may read
without the lock; that of close with the last load before `list_del_init`; that of chown and
chmod when the lock is taken. The stores that then remain are owed.
-/

namespace DoEvent.Locked

open Shared Transition

/-! ### Program counters -/

/-- The place of a search in the machine with whole sections; `junk` is the cursor on entry. -/
def Lookup.reads (k : Lookup) (i : Int32) (junk : Option Addr) : DoEvent.Pc :=
  match k with
  | .access .close c => .closeRead c i
  | .access .wait c => .waitRead c i
  | .access .sig c => .sigRead c i
  | .change c (.owner UID GID) => .chownRead c i UID GID junk
  | .change c (.flags UIDFlag GIDFlag) => .chmodRead c i UIDFlag GIDFlag junk
  | .stat p v => .statRead i p v junk

/-- The search is not one of a wait; in close and sig the cursor is NULL on entry. -/
def Lookup.At (k : Lookup) (i : Int32) (junk : Option Addr) (p : DoEvent.Pc) : Prop :=
  p = k.reads i junk ∧
    match k with
    | .access aim _ => aim ≠ .wait ∧ junk = none
    | _ => True

def Aim.after : Aim → Addr → DoEvent.Pc
  | .close, e => .closeActive e
  | .wait, e => .waitReset e
  | .sig, e => .sigActive e

def Change.writes (c : Cred) (e : Addr) : Change → DoEvent.Pc
  | .owner UID GID => .chownWrite c e UID GID
  | .flags UIDFlag GIDFlag => .chmodWrite c e UIDFlag GIDFlag

def Change.effect (e : Addr) : Change → DoEvent.Effect
  | .owner UID GID => .setOwner e UID GID
  | .flags UIDFlag GIDFlag => .setFlags e UIDFlag GIDFlag

def isReadSection : DoEvent.Pc → Bool
  | .closeRead .. | .waitRead .. | .sigRead .. | .chownRead .. | .chmodRead .. => true
  | .statRead .. | .infoRead .. => true
  | _ => false

/-- The task is at a read section, and the section leads to `p'`. -/
structure Reads (c : DoEvent.State) (t : Task) (p p' : DoEvent.Pc) : Prop where
  isRead : isReadSection p = true
  next : DoEvent.next c t p = some (.skip, p')

-- The stores that may be owed: no id, and no wait queue but the empty one.
def Store.mild : Store → Prop
  | .id _ => False
  | .queue q => q = []
  | _ => True

/-- The events before `rest` in the list have other ids. -/
def Passed (c : DoEvent.State) (i : Int32) (rest : List Addr) : Prop :=
  ∃ xs, c.eventlist = xs ++ rest ∧ ∀ a ∈ xs, (c.mem a).id ≠ i

/-- The search comes to `e`. -/
def Found (c : DoEvent.State) (i : Int32) (junk : Option Addr) (e : Addr) : Prop :=
  searchLoop c.mem i junk c.eventlist = some e

/-- The place `p` of a task in the machine with whole sections, for its place here. No task
is in a wait, so no event has waiters, and the places that need some are not reached. -/
def PcRel (node : Addr → Node) (c : DoEvent.State) (t : Task) : Pc → DoEvent.Pc → Prop
  | .user, p => p = .user
  | .ret r, p => p = .ret r
  | .openAlloc k, p => p = .openAlloc k
  | .stores todo (.initListHead k a), p | .stores todo (.listAdd k a), p =>
    p = .openWrite k a ∧ ∀ w ∈ todo, w.2.isLink = true
  | .openLock k a, p | .openPrev k a, p | .openLast k a, p | .openLastid k a _, p =>
    p = .openWrite k a
  | .stores todo (.openFields a), p =>
    (∃ k, todo = openFields k a (c.mem (lastEvent c)).id ∧ p = .openWrite k a) ∨
      (p = .openRet a ∧ ∀ w ∈ todo, w.2.mild)
  | .openUnlock a, p | .openRet a, p => p = .openRet a
  | .searchLock k i w, p | .searchFirst k i w, p => k.At i w p
  | .searchId k i pos, p => ∃ junk, k.At i junk p ∧ ∃ ys, Passed c i (pos :: ys)
  | .searchNext k i pos, p =>
    ∃ junk, k.At i junk p ∧ (c.mem pos).id ≠ i ∧ ∃ ys, Passed c i (pos :: ys)
  | .failUnlock, p => Reads c t p (.ret (-1))
  | .checkUid aim k e, p =>
    k.euid ≠ 0 ∧ ∃ i, (Lookup.access aim k).At i none p ∧ Found c i none e
  | .checkUidFlag aim k e, p =>
    (k.euid ≠ 0 ∧ k.euid = (c.mem e).uid) ∧
      ∃ i, (Lookup.access aim k).At i none p ∧ Found c i none e
  | .checkGid aim k e, p =>
    (k.euid ≠ 0 ∧ ¬ (k.euid = (c.mem e).uid ∧ (c.mem e).uidFlag = 1)) ∧
      ∃ i, (Lookup.access aim k).At i none p ∧ Found c i none e
  | .checkGidFlag aim k e, p =>
    (k.euid ≠ 0 ∧ ¬ (k.euid = (c.mem e).uid ∧ (c.mem e).uidFlag = 1) ∧ k.egid = (c.mem e).gid) ∧
      ∃ i, (Lookup.access aim k).At i none p ∧ Found c i none e
  | .granted aim e, p => Reads c t p (aim.after e) ∧ aim ≠ .wait ∧ (node e).queue = []
  | .closeActive e, p => p = .closeActive e ∧ (node e).queue = []
  | .closeLock e process, p => p = .closeWrite e false ∧ process = false
  | .closePrev e n, p | .closeNext e n _, p => p = .closeWrite e false ∧ n = 0
  | .stores todo (.listDelInit e n), p => p = .closeKfree e n ∧ ∀ w ∈ todo, w.2.isLink = true
  | .closeUnlock e n, p | .closeKfree e n, p => p = .closeKfree e n
  | .sigActive e, p => p = .sigActive e ∧ (node e).queue = []
  | .checkOwner k w e, p =>
    k.euid ≠ 0 ∧ ∃ i junk, (Lookup.change k w).At i junk p ∧ Found c i junk e
  | .changeFound w e, p => ∃ k, Reads c t p (w.writes k e)
  | .changeLock w e, p => ∃ k, p = w.writes k e
  | .stores todo .change, p => p = .ret 0 ∧ ∀ w ∈ todo, w.2.mild
  | .changeUnlock, p => p = .ret 0
  | .statProbe i q junk, p => p = .statProbe i q junk
  | .statUid i q _ e, p | .statGid i q _ e, p | .statUidFlag i q _ e, p | .statGidFlag i q _ e, p =>
    ∃ v junk, (Lookup.stat q v).At i junk p ∧ Found c i none e
  | .statUnlock _ q v w, p => Reads c t p (orFail w fun _ => .statCopy q v)
  | .statCopy q v, p => p = .statCopy q v
  | .infoProbe num q, p => p = .infoProbe num q
  | .infoLock num q, p | .infoFirst num q, p | .infoId num q _ _ _, p | .infoNext num q _ _ _, p =>
    p = .infoRead num q
  | .infoUnlock num q arr check, p => Reads c t p (.infoCopy num q arr check)
  | .infoCopy num q arr check, p => p = .infoCopy num q arr check
  | _, _ => False

-- The section of open has not been made as long as the id is the next field to be stored.
def idFirst : List (Addr × Store) → Bool
  | (_, .id _) :: _ => true
  | _ => false

def Storing.linking (todo : List (Addr × Store)) : Storing → Option Addr
  | .listAdd _ a => some a
  | .openFields a => if idFirst todo then some a else none
  | _ => none

/-- The new event that is on the ring and not yet in the list of the other machine. -/
def Pc.linking : Pc → Option Addr
  | .stores todo k => k.linking todo
  | .openLast _ a | .openLastid _ a _ => some a
  | _ => none

def Storing.owed (todo : List (Addr × Store)) : Storing → List (Addr × Store)
  | .openFields _ => if idFirst todo then [] else todo
  | .change => todo
  | _ => []

/-- The stores that the other machine has made. -/
def Pc.owed : Pc → List (Addr × Store)
  | .stores todo k => k.owed todo
  | _ => []

/-! ### States -/

/-- The events of a history, as in the machine with whole sections. -/
def callEvents (f : State) : Action → List (HistoryEvent Task (Cred × Call) (Int × UserMem))
  | .call t c k => [.invoke t (c, k)]
  | .run t =>
    match f.pc t with
    | .ret r => [.respond t (r, f.user t)]
    | _ => []
  | _ => []

/-- What the lock protects, as the task at `q` sees it while no other task writes. -/
def Pc.Settled (node : Addr → Node) (l : List Addr) (c : DoEvent.State) (q : Pc) : Prop :=
  events (storeAll node q.owed) = c.mem ∧ l = c.eventlist ++ q.linking.toList

structure Rel (f : State) (c : DoEvent.State) (l : List Addr) : Prop where
  inv : Inv f l
  writer : ∀ t, (f.pc t).access = .write → (f.pc t).Settled f.node l c
  free : (∀ t, (f.pc t).access ≠ .write) → events f.node = c.mem ∧ l = c.eventlist
  inUse : c.inUse = f.inUse
  user : c.user = f.user
  sched : c.sched = f.sched
  onRq : ∀ t, (f.sched t).onRq = true
  quiet : ∀ a ∈ c.eventlist, (c.mem a).queue = []
  pcs : ∀ t, PcRel f.node c t (f.pc t) (c.pc t)

theorem nothing_owed {q : Pc} (h : q.access ≠ .write) : q.owed = [] ∧ q.linking = none := by
  cases q with
  | stores todo k =>
    cases k with
    | initListHead => exact ⟨rfl, rfl⟩
    | _ => exact absurd rfl h
  | openLast | openLastid => exact absurd rfl h
  | _ => exact ⟨rfl, rfl⟩

theorem settled_iff {node : Addr → Node} {l : List Addr} {c : DoEvent.State} {q : Pc}
    (hq : q.owed = [] ∧ q.linking = none) :
    q.Settled node l c ↔ events node = c.mem ∧ l = c.eventlist := by
  simp [Pc.Settled, hq, storeAll]

section
variable {f : State} {c c' : DoEvent.State} {l : List Addr} {t u : Task} {q : Pc} {p p' : DoEvent.Pc}
  {node node' : Addr → Node} {i : Int32}

theorem Rel.settled (h : Rel f c l) (hothers : ∀ u, u ≠ t → (f.pc u).access ≠ .write) :
    (f.pc t).Settled f.node l c := by
  by_cases hw : (f.pc t).access = .write
  · exact h.writer t hw
  · rw [settled_iff (nothing_owed hw)]
    refine h.free fun u => ?_
    by_cases hu : u = t
    · rw [hu]
      exact hw
    · exact hothers u hu

/-- Whoever reads finds the same events and the same list as in the other machine. -/
theorem Rel.reading (h : Rel f c l) (hread : (f.pc t).access = .read) :
    events f.node = c.mem ∧ l = c.eventlist :=
  h.free (h.inv.lock.no_writer hread)

theorem hold_of_isRead (hp : isReadSection p = true) : p.hold = none := by
  cases p <;> first | rfl | cases hp

theorem Lookup.isRead_reads (k : Lookup) (junk : Option Addr) :
    isReadSection (k.reads i junk) = true := by
  cases k with
  | access aim c => cases aim <;> rfl
  | change c w => cases w <;> rfl
  | stat p v => rfl

/-- A task that is about to unlink an event there has validated it for close here. -/
theorem PcRel.closes {e : Addr} (h : PcRel node c t q p) (hold : p.hold = some (.unlinking, e)) :
    q.closes = some e := by
  have hread : isReadSection p = false := by
    cases hp : isReadSection p with
    | false => rfl
    | true =>
      rw [hold_of_isRead hp] at hold
      cases hold
  have hat : ∀ (k : Lookup) (i : Int32) (junk : Option Addr), ¬ k.At i junk p := by
    rintro k i junk ⟨rfl, _⟩
    rw [k.isRead_reads] at hread
    cases hread
  cases q with
  | closeActive | closeLock | closePrev | closeNext =>
    obtain ⟨rfl, _⟩ := h
    cases hold
    rfl
  | stores todo k =>
    cases k with
    | openFields a => rcases h with ⟨k, _, rfl⟩ | ⟨rfl, _⟩ <;> cases hold
    | initListHead | listAdd | listDelInit | change =>
      obtain ⟨rfl, _⟩ := h
      cases hold
    | _ => exact h.elim
  | searchLock | searchFirst => exact absurd h (hat _ _ _)
  | searchId | searchNext =>
    obtain ⟨junk, hk, _⟩ := h
    exact absurd hk (hat _ _ _)
  | checkUid | checkUidFlag | checkGid | checkGidFlag =>
    obtain ⟨_, i, hk, _⟩ := h
    exact absurd hk (hat _ _ _)
  | checkOwner =>
    obtain ⟨_, i, junk, hk, _⟩ := h
    exact absurd hk (hat _ _ _)
  | statUid | statGid | statUidFlag | statGidFlag =>
    obtain ⟨v, junk, hk, _⟩ := h
    exact absurd hk (hat _ _ _)
  | failUnlock | statUnlock | infoUnlock => simp [h.isRead] at hread
  | granted => simp [h.1.isRead] at hread
  | changeFound =>
    obtain ⟨k, hk⟩ := h
    simp [hk.isRead] at hread
  | sigActive =>
    obtain ⟨rfl, _⟩ := h
    cases hold
  | changeLock w e =>
    obtain ⟨k, rfl⟩ := h
    cases w <;> cases hold
  | _ =>
    first
    | cases h; cases hold
    | exact h.elim

theorem next_congr (hp : isReadSection p = true) (hmem : c'.mem = c.mem)
    (hlist : c'.eventlist = c.eventlist) : DoEvent.next c' t p = DoEvent.next c t p := by
  cases p with
  | closeRead | waitRead | sigRead | chownRead | chmodRead | statRead | infoRead =>
    simp only [DoEvent.next, hmem, hlist]
  | _ => cases hp

theorem Reads.congr (h : Reads c t p p') (hmem : c'.mem = c.mem)
    (hlist : c'.eventlist = c.eventlist) : Reads c' t p p' :=
  ⟨h.isRead, (next_congr h.isRead hmem hlist).trans h.next⟩

/-- A task outside the lock knows nothing of the list and its records but that a queue is
empty; a task inside keeps what it knows as long as nobody makes a write section. -/
theorem PcRel.frame (h : PcRel node c t q p)
    (hsame : q.access ≠ .none → c'.mem = c.mem ∧ c'.eventlist = c.eventlist)
    (hqueue : ∀ a, (node a).queue = [] → (node' a).queue = []) : PcRel node' c' t q p := by
  cases q with
  | stores todo k =>
    cases k with
    | openFields a =>
      obtain ⟨hmem, hlist⟩ := hsame (fun ha => by cases ha)
      simpa only [PcRel, lastEvent, hmem, hlist] using h
    | _ => exact h
  | searchId | searchNext =>
    obtain ⟨hmem, hlist⟩ := hsame (fun ha => by cases ha)
    simpa only [PcRel, Passed, hmem, hlist] using h
  | failUnlock | statUnlock | infoUnlock =>
    obtain ⟨hmem, hlist⟩ := hsame (fun ha => by cases ha)
    exact h.congr hmem hlist
  | changeFound =>
    obtain ⟨hmem, hlist⟩ := hsame (fun ha => by cases ha)
    obtain ⟨k, hk⟩ := h
    exact ⟨k, hk.congr hmem hlist⟩
  | granted =>
    obtain ⟨hmem, hlist⟩ := hsame (fun ha => by cases ha)
    exact ⟨h.1.congr hmem hlist, h.2.1, hqueue _ h.2.2⟩
  | checkUid | checkUidFlag | checkGid | checkGidFlag | checkOwner | statUid | statGid | statUidFlag
  | statGidFlag =>
    obtain ⟨hmem, hlist⟩ := hsame (fun ha => by cases ha)
    simpa only [PcRel, Found, hmem, hlist] using h
  | closeActive | sigActive => exact ⟨h.1, hqueue _ h.2⟩
  | _ => exact h

end

/-! ### Stores -/

theorem toEvent_store {n n' : Node} (h : n'.toEvent = n.toEvent) (w : Store) :
    (n'.store w).toEvent = (n.store w).toEvent := by
  cases w <;> simp only [Node.store, h]

/-- The records after the stores depend on the records before. -/
theorem events_storeAll_congr {node node' : Addr → Node} (h : events node' = events node)
    (todo : List (Addr × Store)) : events (storeAll node' todo) = events (storeAll node todo) := by
  induction todo generalizing node node' with
  | nil => exact h
  | cons w todo ih =>
    refine ih (funext fun a => ?_)
    by_cases ha : a = w.1
    · subst ha
      simp only [events, storeAt, Function.update_self]
      exact toEvent_store (congrFun h w.1) w.2
    · simp only [events, storeAt_of_ne node' w ha, storeAt_of_ne node w ha]
      exact congrFun h a

theorem events_storeAt_link {node : Addr → Node} {w : Addr × Store} (hw : w.2.isLink = true) :
    events (storeAt node w) = events node := by
  obtain ⟨a, w⟩ := w
  funext b
  by_cases hb : b = a
  · subst hb
    simp only [events, storeAt, Function.update_self]
    cases w with
    | next | prev => rfl
    | _ => cases hw
  · simp only [events, storeAt_of_ne node (a, w) hb]

theorem mild_queue {w : Store} (h : w.mild) {q : List Task} (hw : w = .queue q) : q = [] := by
  subst hw
  exact h

theorem queue_storeAt {node : Addr → Node} {w : Addr × Store} (hw : ∀ q, w.2 = .queue q → q = [])
    {a : Addr} (ha : (node a).queue = []) : (storeAt node w a).queue = [] := by
  by_cases hb : a = w.1
  · subst hb
    rw [storeAt, Function.update_self]
    cases hw' : w.2 with
    | queue q => exact hw q hw'
    | _ => exact ha
  · rw [storeAt_of_ne node w hb, ha]

theorem queue_storeAll {todo : List (Addr × Store)} (hw : ∀ w ∈ todo, w.2.mild) {node : Addr → Node}
    {a : Addr} (ha : (node a).queue = []) : (storeAll node todo a).queue = [] := by
  induction todo generalizing node with
  | nil => exact ha
  | cons w todo ih =>
    exact ih (fun w hw' => hw w (List.mem_cons_of_mem _ hw'))
      (queue_storeAt (fun _ => mild_queue (hw w (List.mem_cons_self ..))) ha)

theorem id_storeAll {todo : List (Addr × Store)} (hw : ∀ w ∈ todo, w.2.mild) {node : Addr → Node}
    (a : Addr) : (storeAll node todo a).id = (node a).id := by
  induction todo generalizing node with
  | nil => rfl
  | cons w todo ih =>
    have hm := hw w (List.mem_cons_self ..)
    refine (ih (fun w hw' => hw w (List.mem_cons_of_mem _ hw'))).trans ?_
    by_cases hb : a = w.1
    · subst hb
      rw [storeAt, Function.update_self]
      cases hw' : w.2 with
      | id x =>
        rw [hw'] at hm
        exact hm.elim
      | _ => rfl
    · rw [storeAt_of_ne node w hb]

theorem mild_of_isLink {w : Store} (h : w.isLink = true) : w.mild := by
  cases w with
  | next | prev => trivial
  | _ => cases h

/-- What the stores of open, and those of chown and chmod, make of the records. -/
theorem events_openFields (node : Addr → Node) (k : Cred) (a : Addr) (lastid : Int32) :
    events (storeAll node (openFields k a lastid)) = Function.update (events node) a
      { id := lastid + 1, uid := k.euid, gid := k.egid, uidFlag := 1, gidFlag := 1
        condition := 0, queue := [] } := by
  funext b
  by_cases hb : b = a
  · subst hb
    simp [events, storeAll, openFields, storeAt, Node.store]
  · simp [events, storeAll, openFields, storeAt, hb]

theorem events_change {c : DoEvent.State} {node : Addr → Node} (h : events node = c.mem) (t : Task)
    (w : Change) (e : Addr) :
    events (storeAll node (w.stores e)) = (DoEvent.apply c t (w.effect e)).mem := by
  funext b
  have hb' : (c.mem b) = (node b).toEvent := by rw [← h]; rfl
  by_cases hb : b = e
  · subst hb
    cases w <;> simp [events, storeAll, Change.stores, storeAt, Node.store, Change.effect,
      DoEvent.apply, DoEvent.State.modify, hb']
  · cases w <;> simp [events, storeAll, Change.stores, storeAt, Change.effect, DoEvent.apply,
      DoEvent.State.modify, hb, hb']

theorem change_mem_queue (c : DoEvent.State) (t : Task) (w : Change) (e b : Addr) :
    ((DoEvent.apply c t (w.effect e)).mem b).queue = (c.mem b).queue := by
  by_cases hb : b = e
  · subst hb
    cases w <;> simp [Change.effect, DoEvent.apply, DoEvent.State.modify]
  · cases w <;> simp [Change.effect, DoEvent.apply, DoEvent.State.modify, hb]

theorem openFields_mild (k : Cred) (a : Addr) (lastid : Int32) :
    ∀ w ∈ (openFields k a lastid).tail, w.2.mild := by
  simp [openFields, Store.mild]

theorem idFirst_of_mild {todo : List (Addr × Store)} (h : ∀ w ∈ todo, w.2.mild) :
    idFirst todo = false := by
  cases todo with
  | nil => rfl
  | cons w todo =>
    obtain ⟨b, w⟩ := w
    cases w with
    | id x => exact (h _ (List.mem_cons_self ..)).elim
    | _ => rfl

theorem openFields_owed {todo : List (Addr × Store)} (h : ∀ w ∈ todo, w.2.mild) (a : Addr) :
    (Storing.openFields a).owed todo = todo ∧ (Storing.openFields a).linking todo = none := by
  simp [Storing.owed, Storing.linking, idFirst_of_mild h]

section
variable {f : State} {c : DoEvent.State} {l : List Addr}

theorem owed_mild {node : Addr → Node} {t : Task} {q : Pc} {p : DoEvent.Pc} (h : PcRel node c t q p) :
    ∀ w ∈ q.owed, w.2.mild := by
  cases q with
  | stores todo k =>
    cases k with
    | openFields a =>
      rcases h with ⟨k, rfl, _⟩ | ⟨_, hmild⟩
      · exact List.forall_mem_nil _
      · rw [Pc.owed, (openFields_owed hmild a).1]
        exact hmild
    | change => exact h.2
    | _ => exact List.forall_mem_nil _
  | _ => exact List.forall_mem_nil _

/-- Whoever writes, and whatever it still owes: the other machine's memory comes from this
one's by stores that leave every id and every empty queue as they are. -/
theorem Rel.mem_eq (h : Rel f c l) :
    ∃ todo, (∀ w ∈ todo, w.2.mild) ∧ events (storeAll f.node todo) = c.mem := by
  by_cases hw : ∃ t, (f.pc t).access = .write
  · obtain ⟨t, ht⟩ := hw
    exact ⟨(f.pc t).owed, owed_mild (h.pcs t), (h.writer t ht).1⟩
  · exact ⟨[], List.forall_mem_nil _, (h.free fun t ht => hw ⟨t, ht⟩).1⟩

/-- The fields that are read without the lock. -/
theorem Rel.id_eq (h : Rel f c l) (a : Addr) : (c.mem a).id = (f.node a).id := by
  obtain ⟨todo, hmild, hmem⟩ := h.mem_eq
  rw [← hmem]
  exact id_storeAll hmild a

theorem Rel.queue_eq (h : Rel f c l) {a : Addr} (ha : (f.node a).queue = []) :
    (c.mem a).queue = [] := by
  obtain ⟨todo, hmild, hmem⟩ := h.mem_eq
  rw [← hmem]
  exact queue_storeAll hmild ha

end

end DoEvent.Locked
