import DoEvent.Owners
import DoEvent.Confinement

/-!
# The event table

What the eight calls are for, without records, addresses, cursors and wait queues: a table of
the live events, oldest first, each with its id and with its owner and flags as stat reports
them. A call names an event by its id, is let through or refused by what the table says about
it, and may add, remove or change an entry. `State.registry` reads the table off the list of
records, and every call that runs alone does to the records what it does to the table.
-/

namespace DoEvent

open Transition

abbrev Registry := List (Int32 × StatVals)

namespace Registry

/-- The entry that an id names. Negative ids name nothing, even if an event has one. -/
def find (R : Registry) (i : Int32) : Option StatVals :=
  if i < 0 then none else (R.find? fun e => e.1 = i).map Prod.snd

def ids (R : Registry) : List Int32 := R.map Prod.fst

def add (R : Registry) (c : Cred) : Registry :=
  R ++ [(R.ids.getLast?.getD (-1) + 1, ⟨c.euid, c.egid, 1, 1⟩)]

def remove (R : Registry) (i : Int32) : Registry := R.eraseP fun e => e.1 = i

def modify (f : StatVals → StatVals) (i : Int32) : Registry → Registry
  | [] => []
  | e :: R => if e.1 = i then (e.1, f e.2) :: R else e :: modify f i R

/-- The caller may wait on, signal or close the event. -/
def MayUse (R : Registry) (c : Cred) (i : Int32) : Prop :=
  ∃ v, R.find i = some v ∧
    (c.euid = 0 ∨ (c.euid = v.uid ∧ v.uidFlag = 1) ∨ (c.egid = v.gid ∧ v.gidFlag = 1))

/-- The caller may change owner and flags of the event. -/
def MayChange (R : Registry) (c : Cred) (i : Int32) : Prop :=
  ∃ v, R.find i = some v ∧ (c.euid = 0 ∨ c.euid = v.uid)

/-- The ints of a buffer of `num` that has room for all events: the ids, and -1 after them. -/
def listing (R : Registry) (num : Int32) : List Int32 :=
  R.ids ++ List.replicate (num.toInt.toNat - R.length) (-1)

/-- Info, for fewer than 2^30 ints, so that their bytes can be counted in 32 bits. -/
def Lists (R : Registry) (m : UserMem) (num : Int32) (o : Option Int) (m' : UserMem) :
    Option ℕ → Prop
  | none => o = some R.length ∧ m' = m
  | some p =>
    (num < 0 ∨ ¬ Covers m.readable p 4 ∨ num.toInt < R.length → o = some (-1) ∧ m' = m) ∧
    (Covers m.readable p 4 → (R.length : Int) ≤ num.toInt → num.toInt < 1073741824 →
      Written m p (R.listing num) m' ∧
      (Covers m.writable p (4 * num.toInt.toNat) → o = some R.length) ∧
      (¬ Covers m.writable p (4 * num.toInt.toNat) → o = some (-1)))

def Reports (R : Registry) (m : UserMem) (i : Int32) (p : StatPtrs) (o : Option Int)
    (m' : UserMem) : Prop :=
  ((∃ a ∈ p.targets, ¬ Covers m.readable a 4) ∨ R.find i = none → o = some (-1) ∧ m' = m) ∧
  ∀ v, R.find i = some v → (∀ a ∈ p.targets, Covers m.readable a 4) → Reported m p v m' ∧
    ((∀ a ∈ p.targets, Covers m.writable a 4) → o = some 0) ∧
    ((∃ a ∈ p.targets, ¬ Covers m.writable a 4) → o = some (-14))

/-- A call that is refused returns -1 and leaves the table alone. -/
def Checked (R : Registry) (may : Prop) (o : Option Int) (R' : Registry) (granted : Prop) : Prop :=
  (may → granted) ∧ (¬ may → o = some (-1) ∧ R' = R)

/-- A call with its outcome, `none` for a wait that is asleep, and the user memory of the
caller before and after it. How many tasks close and sig find waiting is not in the table, and
info can count fewer than 2^31 events. -/
def Serves (R : Registry) (c : Cred) (m : UserMem) (k : Call) (o : Option Int) (R' : Registry)
    (m' : UserMem) : Prop :=
  match k with
  | .doeventopen =>
    m' = m ∧ (o = some (-1) ∧ R' = R ∨
      o = some (R.ids.getLast?.getD (-1) + 1).toInt ∧ R' = R.add c)
  | .doeventclose i =>
    m' = m ∧ R.Checked (R.MayUse c i) o R' ((∃ n : ℕ, o = some n) ∧ R' = R.remove i)
  | .doeventwait i =>
    m' = m ∧ R.Checked (R.MayUse c i) o R' ((o = none ∨ o = some 1) ∧ R' = R)
  | .doeventsig i =>
    m' = m ∧ R.Checked (R.MayUse c i) o R' ((∃ n : ℕ, o = some n) ∧ R' = R)
  | .doeventinfo num eventIDs =>
    R' = R ∧ (R.length < 2147483648 → R.Lists m num o m' eventIDs)
  | .doeventchown i UID GID _ =>
    m' = m ∧ R.Checked (R.MayChange c i) o R'
      (o = some 0 ∧ R' = R.modify (fun v => { v with uid := UID, gid := GID }) i)
  | .doeventchmod i UIDFlag GIDFlag _ =>
    m' = m ∧ R.Checked (R.MayChange c i) o R'
      (o = some 0 ∧ R' = R.modify (fun v => { v with uidFlag := UIDFlag, gidFlag := GIDFlag }) i)
  | .doeventstat i p _ => R' = R ∧ R.Reports m i p o m'

end Registry

/-! ### The table of a state -/

def tableEntry (mem : Addr → Event) (a : Addr) : Int32 × StatVals := ((mem a).id, (mem a).vals)

def State.registry (s : State) : Registry := s.eventlist.map (tableEntry s.mem)

section
variable {s s' : State} {mem mem' : Addr → Event} {l : List Addr} {i : Int32} {c : Cred} {a e : Addr}
  {junk : Option Addr}

theorem find_map (mem : Addr → Event) (l : List Addr) (hi : ¬ i < 0) :
    Registry.find (l.map (tableEntry mem)) i =
      (searchLoop mem i none l).map fun a => (mem a).vals := by
  rw [Registry.find, if_neg hi, searchLoop_null, List.find?_map, Option.map_map]
  rfl

theorem find_of_neg {R : Registry} (hi : i < 0) : R.find i = none := if_pos hi

theorem not_neg_of_find {R : Registry} {v : StatVals} (h : R.find i = some v) : ¬ i < 0 := by
  intro hi
  rw [find_of_neg hi] at h
  cases h

/-- The cursor is read only if the loop has no record to go through. -/
theorem searchLoop_cursor (mem : Addr → Event) (i : Int32) (hjunk : l ≠ [] ∨ junk = none) :
    searchLoop mem i junk l = searchLoop mem i none l := by
  rcases hjunk with hl | rfl
  · exact searchLoop_junk mem i junk hl
  · rfl

theorem mayUse_iff (mem : Addr → Event) (l : List Addr) (c : Cred) (hi : ¬ i < 0) :
    Registry.MayUse (l.map (tableEntry mem)) c i ↔ ∃ e, readSection mem l c i = some e := by
  rw [Registry.MayUse, find_map mem l hi, readSection]
  cases searchLoop mem i none l with
  | none => simp [validateEvent]
  | some e => simp [validateEvent, Event.vals, or_assoc]

theorem mayChange_iff (mem : Addr → Event) (c : Cred) (hi : ¬ i < 0) (hjunk : l ≠ [] ∨ junk = none) :
    Registry.MayChange (l.map (tableEntry mem)) c i ↔
      ∃ e, readSectionUser mem l c i junk = some e := by
  rw [Registry.MayChange, find_map mem l hi, readSectionUser, searchLoop_cursor mem i hjunk]
  cases searchLoop mem i none l with
  | none => simp [validateUserEvent]
  | some e => simp [validateUserEvent, Event.vals]

/-- The first record with the id is where the search stops. -/
theorem search_split (h : searchLoop mem i none l = some e) :
    ∃ xs ys, l = xs ++ e :: ys ∧ (mem e).id = i ∧ ∀ a ∈ xs, (mem a).id ≠ i := by
  rw [searchLoop_null, List.find?_eq_some_iff_append] at h
  obtain ⟨hid, xs, ys, hl, hxs⟩ := h
  exact ⟨xs, ys, hl, of_decide_eq_true hid, by simpa using hxs⟩

theorem remove_map (hn : l.Nodup) (h : searchLoop mem i none l = some e) :
    Registry.remove (l.map (tableEntry mem)) i = (l.erase e).map (tableEntry mem) := by
  obtain ⟨xs, ys, rfl, hid, hxs⟩ := search_split h
  have he : e ∉ xs := fun hm => (List.nodup_append.mp hn).2.2 e hm e (List.mem_cons_self ..) rfl
  rw [List.erase_append_right _ he, List.erase_cons_head, Registry.remove, List.map_append,
    List.map_cons, List.eraseP_append_right, List.eraseP_cons_of_pos, List.map_append]
  · exact decide_eq_true hid
  · simpa [tableEntry] using hxs

theorem modify_skip {f : StatVals → StatVals} {xs R : Registry} (h : ∀ x ∈ xs, x.1 ≠ i) :
    Registry.modify f i (xs ++ R) = xs ++ Registry.modify f i R := by
  induction xs with
  | nil => rfl
  | cons x xs ih =>
    have hx : x.1 ≠ i := h x (List.mem_cons_self ..)
    have hxs := ih fun y hy => h y (List.mem_cons_of_mem _ hy)
    rw [List.cons_append, Registry.modify, if_neg hx, hxs, List.cons_append]

theorem modify_map {f : StatVals → StatVals} (hn : l.Nodup) (h : searchLoop mem i none l = some e)
    (hother : ∀ b, b ≠ e → mem' b = mem b) (hid : (mem' e).id = (mem e).id)
    (hvals : (mem' e).vals = f (mem e).vals) :
    Registry.modify f i (l.map (tableEntry mem)) = l.map (tableEntry mem') := by
  obtain ⟨xs, ys, rfl, hi, hxs⟩ := search_split h
  obtain ⟨_, hys, hapart⟩ := List.nodup_append.mp hn
  have hbefore : xs.map (tableEntry mem') = xs.map (tableEntry mem) := List.map_congr_left fun b hb => by
    rw [tableEntry, hother b fun he => hapart b hb e (List.mem_cons_self ..) he]
    rfl
  have hafter : ys.map (tableEntry mem') = ys.map (tableEntry mem) := List.map_congr_left fun b hb => by
    rw [tableEntry, hother b fun he => (List.nodup_cons.mp hys).1 (he ▸ hb)]
    rfl
  have hentry : tableEntry mem' e = ((tableEntry mem e).1, f (tableEntry mem e).2) := by
    rw [tableEntry, hid, hvals]
    rfl
  have hfirst : (tableEntry mem e).1 = i := hi
  rw [List.map_append, List.map_cons, List.map_append, List.map_cons, modify_skip (by
    simpa [tableEntry] using hxs), Registry.modify, if_pos hfirst, hbefore, hafter, hentry]

/-- A state whose records differ in conditions and queues only has the same table. -/
theorem registry_congr (hl : s'.eventlist = s.eventlist)
    (h : ∀ a ∈ s.eventlist, (s'.mem a).id = (s.mem a).id ∧ (s'.mem a).vals = (s.mem a).vals) :
    s'.registry = s.registry := by
  rw [State.registry, State.registry, hl]
  refine List.map_congr_left fun a ha => ?_
  rw [tableEntry, tableEntry, (h a ha).1, (h a ha).2]

theorem lastId_registry (hlast : s.eventlist = [] → (s.mem allevents).id = -1) :
    s.registry.ids.getLast?.getD (-1) = (s.mem (lastEvent s)).id := by
  rw [Registry.ids, State.registry, List.map_map, List.getLast?_map, lastEvent]
  cases h : s.eventlist.getLast? with
  | none => exact (hlast (List.getLast?_eq_none_iff.mp h)).symm
  | some a => rfl

end

/-! ### The calls -/

/-- The uninitialised cursor of the call. -/
def Call.cursor : Call → Option Addr
  | .doeventchown _ _ _ junk | .doeventchmod _ _ _ junk | .doeventstat _ _ junk => junk
  | _ => none

section
variable {s : State} {t : Task} {c : Cred} {i : Int32} {r junk : Option Addr}

theorem checked_refused {R : Registry} {may granted : Prop} (h : ¬ may) :
    R.Checked may (some (-1)) R granted := ⟨fun hm => absurd hm h, fun _ => ⟨rfl, rfl⟩⟩

theorem checked_granted {R R' : Registry} {may granted : Prop} {o : Option Int} (h : may)
    (hg : granted) : R.Checked may o R' granted := ⟨fun _ => hg, fun hm => absurd h hm⟩

theorem readSection_search {mem : Addr → Event} {l : List Addr} {e : Addr}
    (h : readSection mem l c i = some e) : searchLoop mem i none l = some e := by
  simp only [readSection] at h
  split_ifs at h
  exact h

theorem readSectionUser_search {mem : Addr → Event} {l : List Addr} {e : Addr}
    (hjunk : l ≠ [] ∨ junk = none) (h : readSectionUser mem l c i junk = some e) :
    searchLoop mem i none l = some e := by
  simp only [readSectionUser] at h
  split_ifs at h
  exact (searchLoop_cursor mem i hjunk).symm.trans h

/-- Close, wait and sig: the id is checked, the event is looked up, and the call goes on with
the event or fails. -/
theorem checked_use (f : Addr → State × Option Int) (granted : State × Option Int → Prop)
    (hf : ∀ e, readSection s.mem s.eventlist c i = some e →
      (f e).1.user t = s.user t ∧ granted (f e)) {q : State × Option Int}
    (hq : q = if isValidEventId i then returned s t (-1)
      else match readSection s.mem s.eventlist c i with
        | none => returned s t (-1)
        | some e => f e) :
    q.1.user t = s.user t ∧
      s.registry.Checked (s.registry.MayUse c i) q.2 q.1.registry (granted q) := by
  subst hq
  split
  next hv =>
    refine ⟨rfl, checked_refused fun hm => ?_⟩
    obtain ⟨v, hfind, _⟩ := hm
    exact not_neg_of_find hfind (isValidEventId_iff.mp hv)
  next hv =>
    have hmay := mayUse_iff s.mem s.eventlist c fun hi => hv (isValidEventId_iff.mpr hi)
    cases hr : readSection s.mem s.eventlist c i with
    | none => exact ⟨rfl, checked_refused fun hm => by simpa [hr] using hmay.mp hm⟩
    | some e =>
      obtain ⟨huser, hgranted⟩ := hf e hr
      exact ⟨huser, checked_granted (hmay.mpr ⟨e, hr⟩) hgranted⟩

/-- The same for chown and chmod, which change the record they find. -/
theorem checked_change (hn : s.eventlist.Nodup) (hjunk : s.eventlist ≠ [] ∨ junk = none)
    (f : Event → Event) (g : StatVals → StatVals) (hid : ∀ v, (f v).id = v.id)
    (hvals : ∀ v, (f v).vals = g v.vals) {refused : Prop} [Decidable refused]
    (hneg : refused ↔ i < 0) {q : State × Option Int}
    (hq : q = if refused then returned s t (-1)
      else match readSectionUser s.mem s.eventlist c i junk with
        | none => returned s t (-1)
        | some e => returned (s.modify e f) t 0) :
    q.1.user t = s.user t ∧ s.registry.Checked (s.registry.MayChange c i) q.2 q.1.registry
      (q.2 = some 0 ∧ q.1.registry = s.registry.modify g i) := by
  subst hq
  split
  next hv =>
    refine ⟨rfl, checked_refused fun hm => ?_⟩
    obtain ⟨v, hfind, _⟩ := hm
    exact not_neg_of_find hfind (hneg.mp hv)
  next hv =>
    have hmay := mayChange_iff s.mem c (fun hi => hv (hneg.mpr hi)) hjunk
    cases hr : readSectionUser s.mem s.eventlist c i junk with
    | none => exact ⟨rfl, checked_refused fun hm => by simpa [hr] using hmay.mp hm⟩
    | some e =>
      refine ⟨rfl, checked_granted (hmay.mpr ⟨e, hr⟩) ⟨rfl, ?_⟩⟩
      refine (modify_map hn (readSectionUser_search hjunk hr) (fun b hb => ?_) ?_ ?_).symm
      · simp [returned, hb]
      · simp [returned, hid]
      · simp [returned, hvals]

theorem serves_open (hlast : s.eventlist = [] → (s.mem allevents).id = -1)
    (hnew : ∀ a, r = some a → a ∉ s.eventlist) :
    s.registry.Serves c (s.user t) .doeventopen (sysDoeventopen s t c r).2
      (sysDoeventopen s t c r).1.registry ((sysDoeventopen s t c r).1.user t) := by
  cases r with
  | none => exact ⟨rfl, .inl ⟨rfl, rfl⟩⟩
  | some a =>
    have hlastid := lastId_registry hlast
    refine ⟨rfl, .inr ⟨?_, ?_⟩⟩
    · rw [hlastid]
      simp [sysDoeventopen, returned, openSection, lastEvent]
    · rw [Registry.add, hlastid, State.registry, State.registry]
      show (s.eventlist ++ [a]).map _ = _
      rw [List.map_append]
      refine congrArg₂ _ (List.map_congr_left fun b hb => ?_) ?_
      · have hba : b ≠ a := fun he => hnew a rfl (he ▸ hb)
        simp [tableEntry, sysDoeventopen, returned, openSection, hba]
      · simp [tableEntry, Event.vals, sysDoeventopen, returned, openSection, lastEvent]

/-- The effects that the table does not show. -/
def Effect.tableStill : Effect → Bool
  | .openSection _ _ | .closeSection _ _ | .setOwner _ _ _ | .setFlags _ _ _ => false
  | _ => true

theorem registry_apply {e : Effect} (he : e.tableStill = true) :
    (apply s t e).registry = s.registry := by
  refine registry_congr ?_ fun a _ => ⟨?_, ?_⟩
  · rw [apply_eventlist]
    cases e <;> first | rfl | cases he
  · rw [apply_id]
    cases e <;> first | rfl | cases he
  · rw [apply_vals]
    cases e <;> first | rfl | cases he

theorem registry_close (hn : s.eventlist.Nodup) {e : Addr} {process : Bool}
    (h : searchLoop s.mem i none s.eventlist = some e) :
    (closeSection s e process).registry = s.registry.remove i := by
  have hsame : ∀ a, tableEntry (closeSection s e process).mem a = tableEntry s.mem a := fun a =>
    Prod.ext (apply_id s 0 (.closeSection e process) a) (apply_vals s 0 (.closeSection e process) a)
  have hlist : (closeSection s e process).eventlist = s.eventlist.erase e :=
    apply_eventlist s 0 (.closeSection e process)
  rw [State.registry, State.registry, remove_map hn h, hlist]
  exact List.map_congr_left fun a _ => hsame a

theorem serves_close (hn : s.eventlist.Nodup) :
    s.registry.Serves c (s.user t) (.doeventclose i) (sysDoeventclose s t c i).2
      (sysDoeventclose s t c i).1.registry ((sysDoeventclose s t c i).1.user t) := by
  refine checked_use _ (fun q => (∃ n : ℕ, q.2 = some n) ∧ q.1.registry = s.registry.remove i) ?_ rfl
  intro e hr
  exact ⟨congrFun (apply_user s t (.closeSection e _)) t, ⟨_, rfl⟩,
    registry_close hn (readSection_search hr)⟩

theorem serves_wait :
    s.registry.Serves c (s.user t) (.doeventwait i) (sysDoeventwait s t c i).2
      (sysDoeventwait s t c i).1.registry ((sysDoeventwait s t c i).1.user t) := by
  refine checked_use _ (fun q => (q.2 = none ∨ q.2 = some 1) ∧ q.1.registry = s.registry) ?_ rfl
  intro e _
  -- The condition, the queue and the scheduler are not in the table.
  let s₁ := apply (apply s t (.setCondition e 0)) t (.prepareToWait e)
  have htable : s₁.registry = s.registry := (registry_apply rfl).trans (registry_apply rfl)
  have huser : s₁.user = s.user := (apply_user ..).trans (apply_user ..)
  dsimp only
  split
  · exact ⟨(congrFun (apply_user s₁ t (.finishWait e)) t).trans (congrFun huser t), .inr rfl,
      (registry_apply (s := s₁) (t := t) (e := .finishWait e) rfl).trans htable⟩
  · exact ⟨congrFun huser t, .inl rfl, htable⟩

theorem serves_sig :
    s.registry.Serves c (s.user t) (.doeventsig i) (sysDoeventsig s t c i).2
      (sysDoeventsig s t c i).1.registry ((sysDoeventsig s t c i).1.user t) := by
  refine checked_use _ (fun q => (∃ n : ℕ, q.2 = some n) ∧ q.1.registry = s.registry) ?_ rfl
  intro e _
  split
  · have htable : (apply (apply s t (.setCondition e 1)) t (.wakeUpAll e)).registry = s.registry :=
      (registry_apply rfl).trans (registry_apply rfl)
    exact ⟨rfl, ⟨_, rfl⟩, htable⟩
  · exact ⟨rfl, ⟨0, rfl⟩, rfl⟩

theorem serves_chown {UID GID : UInt32} (hn : s.eventlist.Nodup)
    (hjunk : s.eventlist ≠ [] ∨ junk = none) :
    s.registry.Serves c (s.user t) (.doeventchown i UID GID junk)
      (sysDoeventchown s t c i UID GID junk).2 (sysDoeventchown s t c i UID GID junk).1.registry
      ((sysDoeventchown s t c i UID GID junk).1.user t) := by
  refine checked_change hn hjunk (fun v => { v with uid := UID, gid := GID })
    (fun v => { v with uid := UID, gid := GID }) (fun _ => rfl) (fun _ => rfl) ?_ rfl
  -- The comparisons of the unsigned ids with 0 refuse nothing.
  rw [isValidEventId_iff]
  simp

theorem serves_chmod {UIDFlag GIDFlag : Int32} (hn : s.eventlist.Nodup)
    (hjunk : s.eventlist ≠ [] ∨ junk = none) :
    s.registry.Serves c (s.user t) (.doeventchmod i UIDFlag GIDFlag junk)
      (sysDoeventchmod s t c i UIDFlag GIDFlag junk).2
      (sysDoeventchmod s t c i UIDFlag GIDFlag junk).1.registry
      ((sysDoeventchmod s t c i UIDFlag GIDFlag junk).1.user t) :=
  checked_change hn hjunk (fun v => { v with uidFlag := UIDFlag, gidFlag := GIDFlag })
    (fun v => { v with uidFlag := UIDFlag, gidFlag := GIDFlag }) (fun _ => rfl) (fun _ => rfl)
    isValidEventId_iff rfl

theorem reports_refused {R : Registry} {m : UserMem} {p : StatPtrs}
    (h : (∃ a ∈ p.targets, ¬ Covers m.readable a 4) ∨ R.find i = none) :
    R.Reports m i p (some (-1)) m := by
  refine ⟨fun _ => ⟨rfl, rfl⟩, fun v hv hread => ?_⟩
  rcases h with ⟨a, ha, hn⟩ | hnone
  · exact absurd (hread a ha) hn
  · rw [hnone] at hv
    cases hv

theorem reports_found {R : Registry} {m : UserMem} {p : StatPtrs} {v : StatVals}
    (hfind : R.find i = some v) (hread : ∀ a ∈ p.targets, Covers m.readable a 4) :
    R.Reports m i p (some (statFinish m p v).2) (statFinish m p v).1 := by
  constructor
  · rintro (⟨a, ha, hn⟩ | hnone)
    · exact absurd (hread a ha) hn
    · rw [hnone] at hfind
      cases hfind
  · intro v' hv' _
    obtain rfl : v = v' := Option.some.inj (hfind.symm.trans hv')
    refine ⟨reported_statFinish m p v, fun h => congrArg some (statFinish_eq_zero.mpr h), ?_⟩
    rintro ⟨a, ha, hn⟩
    refine congrArg some ((statFinish_value m p v).resolve_left fun h0 => ?_)
    exact hn (statFinish_eq_zero.mp h0 a ha)

theorem serves_stat {p : StatPtrs} (hjunk : s.eventlist ≠ [] ∨ junk = none) :
    s.registry.Serves c (s.user t) (.doeventstat i p junk) (sysDoeventstat s t i p junk).2
      (sysDoeventstat s t i p junk).1.registry ((sysDoeventstat s t i p junk).1.user t) := by
  rw [sysDoeventstat]
  cases hp : statProbe (s.user t) p with
  | none => exact ⟨rfl, reports_refused (.inl (statProbe_eq_none.mp hp))⟩
  | some v =>
    dsimp only
    split
    next hv => exact ⟨rfl, reports_refused (.inr (find_of_neg (isValidEventId_iff.mp hv)))⟩
    next hv =>
      have hfind := find_map s.mem s.eventlist fun hi => hv (isValidEventId_iff.mpr hi)
      have hsearch : (statLoop s.mem i junk v s.eventlist).1 = searchLoop s.mem i none s.eventlist :=
        (statLoop_fst ..).trans (searchLoop_cursor s.mem i hjunk)
      cases hr : searchLoop s.mem i none s.eventlist with
      | none =>
        rw [hr] at hfind hsearch
        rw [hsearch]
        exact ⟨rfl, reports_refused (.inr hfind)⟩
      | some e =>
        rw [hr] at hfind
        rw [statLoop_found hr junk v]
        have hreports := reports_found hfind (readable_of_statProbe hp)
        refine ⟨rfl, ?_⟩
        dsimp only [returned, goto_user]
        rwa [Function.update_self]

/-- Info refuses, or copies out what the table lists. -/
theorem lists_info {num : Int32} {p : ℕ} (hfew : s.registry.length < 2147483648) :
    s.registry.Lists (s.user t) num (sysDoeventinfo s t num (some p)).2
      ((sysDoeventinfo s t num (some p)).1.user t) (some p) := by
  have hlen : s.registry.length = s.eventlist.length := List.length_map ..
  rw [hlen] at hfew
  constructor
  · intro hrefused
    have heq : sysDoeventinfo s t num (some p) = returned s t (-1) := by
      rcases hrefused with hneg | hunread | hshort
      · exact info_negative hneg
      · exact info_unreadable hunread
      · exact info_short hfew (by omega)
    rw [heq]
    exact ⟨rfl, rfl⟩
  · intro hread hroom hnum
    have hroom' : (s.eventlist.length : Int) ≤ num.toInt := by omega
    -- Below 2^30 ints the length of the copy is not cut.
    have hwhole : s.copied num = s.listing num := by
      rw [State.copied]
      refine List.take_of_length_le ?_
      rw [length_listing hroom']
      omega
    have hsame : s.registry.listing num = s.listing num := by
      rw [Registry.listing, State.listing, hlen, Registry.ids, State.registry, List.map_map]
      rfl
    have heq := info_fits hfew hroom' hread
    rw [hwhole] at heq
    have hleft := @copyToUser_left (s.user t) p (intBytes (s.listing num))
    rw [length_intBytes, length_listing hroom'] at hleft
    rw [heq, hsame, hlen]
    dsimp only [returned, goto_user]
    rw [Function.update_self]
    refine ⟨written_copyToUser .., fun h => ?_, fun h => ?_⟩
    · rw [hleft.mpr h]
      rfl
    · rw [if_pos (mt hleft.mp h)]

theorem serves_info {num : Int32} {eventIDs : Option ℕ} :
    s.registry.Serves c (s.user t) (.doeventinfo num eventIDs) (sysDoeventinfo s t num eventIDs).2
      (sysDoeventinfo s t num eventIDs).1.registry
      ((sysDoeventinfo s t num eventIDs).1.user t) := by
  refine ⟨?_, fun hfew => ?_⟩
  · rw [sysDoeventinfo]
    split_ifs <;> rfl
  · cases eventIDs with
    | none =>
      have hlen : s.registry.length = s.eventlist.length := List.length_map ..
      rw [info_null (by omega), Registry.Lists, hlen]
      exact ⟨rfl, rfl⟩
    | some p => exact lists_info hfew

/-- Every call that runs alone serves its caller from the table. -/
theorem serves_sysCall {k : Call} (hn : s.eventlist.Nodup)
    (hlast : s.eventlist = [] → (s.mem allevents).id = -1) (hnew : ∀ a, r = some a → a ∉ s.eventlist)
    (hjunk : s.eventlist ≠ [] ∨ k.cursor = none) :
    s.registry.Serves c (s.user t) k (sysCall s t c k r).2 (sysCall s t c k r).1.registry
      ((sysCall s t c k r).1.user t) := by
  cases k with
  | doeventopen => exact serves_open hlast hnew
  | doeventclose i => exact serves_close hn
  | doeventwait i => exact serves_wait
  | doeventsig i => exact serves_sig
  | doeventinfo num q => exact serves_info
  | doeventchown i U G junk => exact serves_chown hn hjunk
  | doeventchmod i u g junk => exact serves_chmod hn hjunk
  | doeventstat i q junk => exact serves_stat hjunk

end

/-! ### Whole runs -/

section
variable {s s' : State} {t u : Task} {c : Cred} {k : Call} {o : Option Int} {x : Action}

theorem sentinel_step (hl : ListInv s) (hid : (s.mem allevents).id = -1) (h : step s x = some s') :
    (s'.mem allevents).id = -1 := by
  obtain ⟨e, p, hm, rfl⟩ := step_eq_some.mp h
  rw [goto_mem, apply_id]
  cases e with
  | openSection c a =>
    have ha := (hl.owned x.task a (.inl (holds_of_pc hm.origin.1 rfl))).2.2
    simpa [Ne.symm ha] using hid
  | _ => exact hid

/-- A task that runs alone leaves the memory of the other tasks alone. -/
theorem solo_user (h : SoloEnds t s s' o) (hu : u ≠ t) : s'.user u = s.user u := by
  obtain ⟨xs, hrun, _⟩ := h
  refine hrun.invariant (fun m => m.user u = s.user u) rfl ?_
  intro m x m' hm hown hst
  obtain ⟨e, p, _, rfl⟩ := step_eq_some.mp hst
  have ht : x.task = t := hown.task
  rw [goto_user, apply_user]
  cases e with
  | copyOut v => exact (Function.update_of_ne (ht ▸ hu) ..).trans hm
  | _ => exact hm

theorem callEnds_user (ht : s.pc t = .user) (h : CallEnds s t c k s' o) (hu : u ≠ t) :
    s'.user u = s.user u := by
  have huser := solo_user ((callEnds_iff ht).mp h) hu
  rwa [goto_user] at huser

/-- A call that ends, as an answer from the table. -/
theorem callEnds_serves (hl : ListInv s) (hid : s.eventlist = [] → (s.mem allevents).id = -1)
    (ht : s.pc t = .user) (hrq : (s.sched t).onRq = true)
    (hjunk : s.eventlist ≠ [] ∨ k.cursor = none) (h : CallEnds s t c k s' o) :
    s.registry.Serves c (s.user t) k o s'.registry (s'.user t) := by
  obtain ⟨r, hfree, heq⟩ := (soloEnds_iff hrq c k).mp ((callEnds_iff ht).mp h)
  have hnew : ∀ a, r = some a → a ∉ s.eventlist := by
    intro a ha hmem
    have hused := hfree a ha
    rw [hl.used a hmem] at hused
    cases hused
  obtain ⟨rfl, rfl⟩ := Prod.mk.inj heq
  exact serves_sysCall hl.nodup hid hnew hjunk

/-- The rest of a wait from `schedule()` on. -/
def Pc.resumes : Pc → Bool
  | .user | .ret _ | .waitAsleep _ | .waitPrepare _ | .waitRetest _ | .waitSignal _
  | .waitSchedule _ | .waitFinish _ => true
  | _ => false

theorem resumes_step (hpc : (s.pc t).resumes = true) (hx : OwnStep t s x)
    (h : step s x = some s') :
    (s'.pc t).resumes = true ∧ s'.registry = s.registry ∧ s'.user = s.user := by
  rcases hx with rfl | ⟨r, rfl⟩
  · obtain ⟨e, p, hf, rfl⟩ := step_run h
    have hp : p.resumes = true ∧ e.tableStill = true ∧ (apply s t e).user = s.user := by
      generalize s.pc t = q at hf hpc
      cases hf with
      | ret | waitPrepare | waitLeave | waitCommit | waitSignalled | waitUnsignalled | waitSchedule
      | waitAwake | waitFinish => exact ⟨rfl, rfl, apply_user ..⟩
      | _ => cases hpc
    refine ⟨?_, registry_apply hp.2.1, hp.2.2⟩
    rw [goto_pc, Function.update_self]
    exact hp.1
  · simp only [step] at h
    generalize s.pc t = q at h hpc
    cases q with
    | openAlloc c => cases hpc
    | _ => cases h

/-- A task that comes back from its sleep changes nothing in the table, not even when the
event it slept on has been closed. -/
theorem resume_still {e : Addr} (hpc : s.pc t = .waitAsleep e) (h : SoloEnds t s s' o) :
    s'.registry = s.registry ∧ s'.user = s.user := by
  obtain ⟨xs, hrun, _⟩ := h
  have hkeep := hrun.invariant
    (fun m => (m.pc t).resumes = true ∧ m.registry = s.registry ∧ m.user = s.user)
    ⟨by rw [hpc]; rfl, rfl, rfl⟩ ?_
  · exact hkeep.2
  · intro m x m' hm hown hst
    obtain ⟨hp, htable, huser⟩ := resumes_step hm.1 hown hst
    exact ⟨hp, htable.trans hm.2.1, huser.trans hm.2.2⟩

end

/-- In every state that calls made one at a time lead to, whatever ids have been issued so
far: every call returns or falls asleep, and whatever it does is an answer from the table; it
leaves the memory of the other tasks alone; and a task that wakes up from a wait changes
nothing. Only a lookup by chown, chmod or stat in the empty table has to find its
uninitialised cursor to be NULL. -/
theorem calls_serve_from_table (mem : Addr → Event) (user : Task → UserMem) (xs : List Action)
    (s : State) (hrun : Run step OneAtATime (doeventInit mem user) xs s) (hquiet : s.quiet) :
    (∀ t c k, s.pc t = .user → s.registry ≠ [] ∨ k.cursor = none →
      (∃ s' o, CallEnds s t c k s' o) ∧
      ∀ s' o, CallEnds s t c k s' o →
        s.registry.Serves c (s.user t) k o s'.registry (s'.user t) ∧
        (∀ u, u ≠ t → s'.user u = s.user u) ∧ s'.quiet) ∧
    ∀ t e s' o, s.pc t = .waitAsleep e → SoloEnds t s s' o →
      s'.registry = s.registry ∧ s'.user = s.user := by
  have hinv : SeqInv s ∧ (s.mem allevents).id = -1 :=
    hrun.invariant (fun s => SeqInv s ∧ (s.mem allevents).id = -1)
      ⟨doeventInit_seqInv mem user, by simp [doeventInit]⟩ fun _ _ _ hi hx hst =>
        ⟨hi.1.step hx hst, sentinel_step hi.1.list hi.2 hst⟩
  refine ⟨fun t c k ht hjunk => ?_, fun t e s' o hpc h => resume_still hpc h⟩
  have hrq := onRq_of_user hinv.1.own ht
  have hcursor : s.eventlist ≠ [] ∨ k.cursor = none :=
    hjunk.imp_left fun hne hnil => hne (by rw [State.registry, hnil]; rfl)
  constructor
  · exact ⟨_, _, (callEnds_iff ht).mpr ((soloEnds_iff hrq c k).mpr ⟨none, by simp, rfl⟩)⟩
  · intro s' o hends
    exact ⟨callEnds_serves hinv.1.list (fun _ => hinv.2) ht hrq hcursor hends,
      fun u hu => callEnds_user ht hends hu, (callEnds_quiet hinv.1 hquiet hends).2⟩

theorem calls_serve_from_table_sleeper :
    ∃ s s' o, Run step OneAtATime boot sleeperRun s ∧ s.quiet ∧ s.blockedOn 1 1 ∧
      s.registry = [(0, ⟨5, 5, 1, 1⟩)] ∧ CallEnds s 2 ⟨6, 5⟩ (.doeventclose 0) s' o ∧
      s'.registry = [] := by
  obtain ⟨s, hr, hi, ht⟩ := run_of_idle_test OneAtATime sleeperRun 2 (oneAtATimeTest 2)
    (fun s => ((List.range 2).all fun u => (s.pc u).parked) &&
      decide (s.blockedOn 1 1 ∧ s.registry = [(0, ⟨5, 5, 1, 1⟩)]))
    (by decide) (boot_idleFrom 2) fun s x hi h => oneAtATime_of_test hi h
  rw [Bool.and_eq_true, decide_eq_true_eq] at ht
  obtain ⟨hpark, hb, htable⟩ := ht
  have hquiet := quiet_of_test hi hpark
  obtain ⟨⟨s', o, hends⟩, hserves⟩ := (calls_serve_from_table bootMem bootUser sleeperRun s hr
    hquiet).1 2 ⟨6, 5⟩ (.doeventclose 0) (hi 2 (Nat.le_refl 2)) (.inr rfl)
  obtain ⟨_, hgranted, _⟩ := (hserves s' o hends).1
  have hmay : s.registry.MayUse ⟨6, 5⟩ 0 := by
    rw [htable]
    exact ⟨⟨5, 5, 1, 1⟩, rfl, .inr (.inr ⟨rfl, rfl⟩)⟩
  refine ⟨s, s', o, hr, hquiet, hb, htable, hends, ?_⟩
  rw [(hgranted hmay).2, htable]
  rfl

end DoEvent
