import DoEvent.Locked.Discipline
import DoEvent.Shared.Ring
import DoEvent.Queries

/-!
# What the lock protects

A task inside a write section owes the stores it has still to make. With these made, the
`eventlist` nodes form a ring through `allevents`, whatever the other tasks do outside the
lock: an opener writes to its unlinked record, a closer frees a record it has unlinked, and
waiters and wakers change conditions and wait queues only. So while nobody writes the ring is
there in memory, and a task that reads sees it unchanged from the first load to the last.
-/

namespace DoEvent.Locked

open Shared Transition

/-! ### Stores -/

def links (node : Addr → Node) : Links Addr := ⟨fun a => (node a).next, fun a => (node a).prev⟩

def storeAll (node : Addr → Node) (todo : List (Addr × Store)) : Addr → Node :=
  todo.foldl storeAt node

/-- What a record becomes depends on that record only. -/
theorem storeAll_congr {node node' : Addr → Node} {a : Addr} (h : node' a = node a)
    (todo : List (Addr × Store)) : storeAll node' todo a = storeAll node todo a := by
  induction todo generalizing node node' with
  | nil => exact h
  | cons w todo ih =>
    refine ih ?_
    by_cases ha : a = w.1
    · subst ha
      simp [storeAt, h]
    · rw [storeAt_of_ne node' w ha, storeAt_of_ne node w ha, h]

theorem links_storeAt {w : Addr × Store} (hw : w.2.isLink = false) (node : Addr → Node) :
    links (storeAt node w) = links node := by
  obtain ⟨a, w⟩ := w
  have hsame : ∀ b, (storeAt node (a, w) b).next = (node b).next ∧
      (storeAt node (a, w) b).prev = (node b).prev := by
    intro b
    by_cases hb : b = a
    · subst hb
      cases w <;> simp_all [storeAt, Node.store, Store.isLink]
    · rw [storeAt_of_ne node (a, w) hb]
      exact ⟨rfl, rfl⟩
  simp [links, hsame]

theorem links_storeAll {todo : List (Addr × Store)} (h : ∀ w ∈ todo, w.2.isLink = false)
    (node : Addr → Node) : links (storeAll node todo) = links node := by
  induction todo generalizing node with
  | nil => rfl
  | cons w todo ih =>
    rw [← links_storeAt (h w (List.mem_cons_self ..)) node]
    exact ih (fun w hw => h w (List.mem_cons_of_mem _ hw)) (storeAt node w)

theorem links_storeNext (node : Addr → Node) (a b : Addr) :
    links (storeAt node (a, .next b)) = (links node).setNext a b := by
  simp only [links, Links.setNext, Links.mk.injEq]
  constructor <;> funext x <;> by_cases hx : x = a <;> simp [storeAt, Node.store, hx]

theorem links_storePrev (node : Addr → Node) (a b : Addr) :
    links (storeAt node (a, .prev b)) = (links node).setPrev a b := by
  simp only [links, Links.setPrev, Links.mk.injEq]
  constructor <;> funext x <;> by_cases hx : x = a <;> simp [storeAt, Node.store, hx]

/-- The links after the stores depend on the links before. -/
theorem links_storeAll_congr {node node' : Addr → Node} (h : links node' = links node)
    (todo : List (Addr × Store)) : links (storeAll node' todo) = links (storeAll node todo) := by
  induction todo generalizing node node' with
  | nil => exact h
  | cons w todo ih =>
    refine ih ?_
    obtain ⟨a, w⟩ := w
    cases w with
    | next b => rw [links_storeNext, links_storeNext, h]
    | prev b => rw [links_storePrev, links_storePrev, h]
    | _ => rw [links_storeAt rfl, links_storeAt rfl, h]

theorem links_listAdd (node : Addr → Node) (new prev next : Addr) :
    links (storeAll node (listAdd new prev next)) = (links node).link new prev next := by
  simp only [storeAll, listAdd, List.foldl_cons, List.foldl_nil, links_storeNext, links_storePrev,
    Links.link]

theorem links_listDelInit (node : Addr → Node) (entry prev next : Addr) :
    links (storeAll node (listDelInit entry prev next)) = (links node).unlink entry prev next := by
  simp only [storeAll, listDelInit, initListHead, List.cons_append, List.nil_append, List.foldl_cons,
    List.foldl_nil, links_storeNext, links_storePrev, Links.unlink]

/-! ### The invariant -/

def events (node : Addr → Node) (a : Addr) : Event := (node a).toEvent

/-- What the locals of a task say about the list `l` and its records. -/
def PcOk (node : Addr → Node) (l : List Addr) : Pc → Prop
  | .stores todo (.initListHead _ a) => ∀ w ∈ todo, w.1 = a
  | .stores _ (.listAdd _ a) | .openLast _ a => ∃ xs, l = xs ++ [a]
  | .openLastid _ a last => ∃ xs, l = xs ++ [a] ∧ last = xs.getLast?.getD allevents
  | .searchLock (.access _ _) _ w | .searchFirst (.access _ _) _ w => w = none
  | .searchId _ _ pos | .searchNext _ _ pos => pos ∈ l
  | .checkUid _ _ e | .checkUidFlag _ _ e | .checkGid _ _ e | .checkGidFlag _ _ e => e ∈ l
  | .granted _ e | .closeActive e | .closeLock e _ | .closeCount e _ => e ∈ l
  | .stores _ (.setCondition e _) | .closeWake e _ | .closePrev e _ => e ∈ l
  | .closeNext e _ prev => e ∈ l ∧ (node e).prev = prev
  | .statUid i _ _ e => e ∈ l ∧ (node e).id = i
  | .statGid i _ v e => e ∈ l ∧ (node e).id = i ∧ (node e).uid = v.uid
  | .statUidFlag i _ v e =>
    e ∈ l ∧ (node e).id = i ∧ (node e).uid = v.uid ∧ (node e).gid = v.gid
  | .statGidFlag i _ v e =>
    e ∈ l ∧ (node e).id = i ∧ (node e).uid = v.uid ∧ (node e).gid = v.gid ∧
      (node e).uidFlag = v.uidFlag
  -- Over an empty list the cursor is still what it was on entry.
  | .checkOwner _ _ e | .changeFound _ e => l = [] ∨ e ∈ l
  | .statUnlock i _ v w =>
    ∀ e, w = some e → l = [] ∨ e ∈ l ∧ (node e).id = i ∧ (events node e).vals = v
  -- The loop over the events that are left gives what the loop over the whole list gives.
  | .infoId num q arr check pos => ∃ xs ys, l = xs ++ pos :: ys ∧
      infoLoop (events node) num q.isSome ys (setAt arr check (node pos).id) (check + 1) =
        infoLoop (events node) num q.isSome l (infoArray num) 0
  | .infoNext num q arr check pos => ∃ xs ys, l = xs ++ pos :: ys ∧
      infoLoop (events node) num q.isSome ys arr check =
        infoLoop (events node) num q.isSome l (infoArray num) 0
  | .infoUnlock num q arr check =>
      (arr, check) = infoLoop (events node) num q.isSome l (infoArray num) 0
  | _ => True

structure Inv (s : State) (l : List Addr) : Prop where
  lock : s.lock.Agrees fun t => (s.pc t).access
  settled : ∀ t, (s.pc t).access = .write →
    (links (storeAll s.node (s.pc t).todo)).Ring allevents l
  free : (∀ t, (s.pc t).access ≠ .write) → (links s.node).Ring allevents l
  used : ∀ a ∈ allevents :: l, s.inUse a = true
  owned : ∀ t a, (s.pc t).owns = some a → s.inUse a = true ∧ a ∉ allevents :: l
  apart : ∀ t u a, (s.pc t).owns = some a → (s.pc u).owns = some a → t = u
  pcs : ∀ t, PcOk s.node l (s.pc t)

theorem infoLoop_congr {mem mem' : Addr → Event} (num : Int32) (want : Bool) {l : List Addr}
    (h : ∀ a ∈ l, (mem' a).id = (mem a).id) (arr : List Int32) (check : Int32) :
    infoLoop mem' num want l arr check = infoLoop mem num want l arr check := by
  induction l generalizing arr check with
  | nil => rfl
  | cons a l ih =>
    rw [infoLoop, infoLoop, h a (List.mem_cons_self ..)]
    exact ih (fun b hb => h b (List.mem_cons_of_mem _ hb)) _ _

section
variable {n n' : Node} (h : n'.fixed = n.fixed)
include h

theorem fixed_id : n'.id = n.id := congrArg Prod.fst h

theorem fixed_vals : n'.vals = n.vals := by
  simp only [Node.fixed, Prod.mk.injEq] at h
  simp only [Event.vals, h]

theorem fixed_prev : n'.prev = n.prev := by
  simp only [Node.fixed, Prod.mk.injEq] at h
  exact h.2.2.2.2.2.2

theorem fixed_next : n'.next = n.next := by
  simp only [Node.fixed, Prod.mk.injEq] at h
  exact h.2.2.2.2.2.1

end

theorem links_of_fixed {node node' : Addr → Node} (h : ∀ a, (node' a).fixed = (node a).fixed) :
    links node' = links node := by
  simp only [links, Links.mk.injEq]
  exact ⟨funext fun a => fixed_next (h a), funext fun a => fixed_prev (h a)⟩

/-- A task outside the lock keeps only the event it is about to close; a task inside keeps
what it knows as long as the list and its records stay as they are. -/
theorem PcOk.frame {node node' : Addr → Node} {l l' : List Addr} {q : Pc} (h : PcOk node l q)
    (hsame : q.access ≠ .none → l' = l ∧ ∀ a ∈ l, (node' a).fixed = (node a).fixed)
    (hcloses : ∀ e, q.closes = some e → e ∈ l') : PcOk node' l' q := by
  cases q with
  | stores todo k =>
    cases k with
    | setCondition e n => exact hcloses e rfl
    | listAdd c a => exact (hsame (fun ha => by cases ha)).1 ▸ h
    | _ => exact h
  | searchLock k i w | searchFirst k i w => cases k <;> exact h
  | closeActive e => exact hcloses e rfl
  | closeLock e process => exact hcloses e rfl
  | closeNext e n prev =>
    obtain ⟨rfl, hnode⟩ := hsame (fun ha => by cases ha)
    exact ⟨h.1, (fixed_prev (hnode e h.1)).trans h.2⟩
  | statUid i p v e | statGid i p v e | statUidFlag i p v e | statGidFlag i p v e =>
    obtain ⟨rfl, hnode⟩ := hsame (fun ha => by cases ha)
    have hfixed := hnode e h.1
    simp only [Node.fixed, Prod.mk.injEq] at hfixed
    simpa only [PcOk, hfixed] using h
  | statUnlock i p v w =>
    obtain ⟨rfl, hnode⟩ := hsame (fun ha => by cases ha)
    intro e he
    refine (h e he).imp_right fun h' => ?_
    have hfixed := hnode e h'.1
    exact ⟨h'.1, (fixed_id hfixed).trans h'.2.1, (fixed_vals hfixed).trans h'.2.2⟩
  | infoId num q arr check pos =>
    obtain ⟨rfl, hnode⟩ := hsame (fun ha => by cases ha)
    obtain ⟨xs, ys, rfl, heq⟩ := h
    have hid : ∀ a ∈ xs ++ pos :: ys, (events node' a).id = (events node a).id := fun a ha => fixed_id (hnode a ha)
    refine ⟨xs, ys, rfl, ?_⟩
    rw [infoLoop_congr num _ hid, fixed_id (hnode pos (by simp)),
      infoLoop_congr num _ fun a ha => hid a (by simp [ha])]
    exact heq
  | infoNext num q arr check pos =>
    obtain ⟨rfl, hnode⟩ := hsame (fun ha => by cases ha)
    obtain ⟨xs, ys, rfl, heq⟩ := h
    have hid : ∀ a ∈ xs ++ pos :: ys, (events node' a).id = (events node a).id := fun a ha => fixed_id (hnode a ha)
    refine ⟨xs, ys, rfl, ?_⟩
    rw [infoLoop_congr num _ hid, infoLoop_congr num _ fun a ha => hid a (by simp [ha])]
    exact heq
  | infoUnlock num q arr check =>
    obtain ⟨rfl, hnode⟩ := hsame (fun ha => by cases ha)
    have hid : ∀ a ∈ l', (events node' a).id = (events node a).id := fun a ha => fixed_id (hnode a ha)
    rw [PcOk, infoLoop_congr num _ hid]
    exact h
  | _ =>
    first
    | exact h
    | exact (hsame (fun ha => by cases ha)).1 ▸ h

/-! ### Loads -/

section
variable {s : State} {l : List Addr}

theorem Lookup.exit_ok {node : Addr → Node} (k : Lookup) (i : Int32) {w : Option Addr}
    (haccess : ∀ aim c, k = .access aim c → w = none) (hstat : l = [] ∨ w = none) :
    PcOk node l (k.exit i w) := by
  cases k with
  | access aim c =>
    rw [haccess aim c rfl]
    trivial
  | change c x =>
    cases w with
    | none => trivial
    | some a =>
      have hnil : l = [] := hstat.resolve_right (by simp)
      simp only [Lookup.exit]
      split_ifs <;> exact .inl hnil
  | stat p v =>
    have hexit : (Lookup.stat p v).exit i w = .statUnlock i p v w := by cases w <;> rfl
    rw [hexit]
    rintro e rfl
    exact .inl (hstat.resolve_right (by simp))

theorem Lookup.loopTest_ok {node : Addr → Node} (k : Lookup) (i : Int32) {w : Option Addr}
    {rest : List Addr} (hrest : ∀ a ∈ rest, a ∈ l) (hhead : allevents ∉ rest)
    (haccess : ∀ aim c, k = .access aim c → w = none) (hstat : rest = [] → l = [] ∨ w = none) :
    PcOk node l (k.loopTest i w (rest.headD allevents)) := by
  cases rest with
  | nil => exact k.exit_ok i haccess (hstat rfl)
  | cons a rest =>
    have ha : a ≠ allevents := fun he => hhead (he ▸ List.mem_cons_self ..)
    rw [Lookup.loopTest, List.headD_cons, if_neg ha]
    exact hrest a (List.mem_cons_self ..)

theorem Lookup.found_ok {node : Addr → Node} (k : Lookup) {i : Int32} {pos : Addr} (hpos : pos ∈ l)
    (hid : (node pos).id = i) : PcOk node l (k.found i pos) := by
  cases k with
  | stat p v => exact ⟨hpos, hid⟩
  | access aim c =>
    simp only [Lookup.found, Lookup.exit]
    split_ifs <;> exact hpos
  | change c x =>
    simp only [Lookup.found, Lookup.exit]
    split_ifs <;> exact .inr hpos

theorem infoTest_ok {node : Addr → Node} {num : Int32} {q : Option ℕ} {arr : List Int32} {check : Int32}
    (xs : List Addr) {rest : List Addr} (hl : l = xs ++ rest) (hhead : allevents ∉ rest)
    (hloop : infoLoop (events node) num q.isSome rest arr check =
      infoLoop (events node) num q.isSome l (infoArray num) 0) :
    PcOk node l (infoTest num q arr check (rest.headD allevents)) := by
  cases rest with
  | nil => exact hloop
  | cons a rest =>
    have ha : a ≠ allevents := fun he => hhead (he ▸ List.mem_cons_self ..)
    rw [infoTest, List.headD_cons, if_neg ha]
    rw [infoLoop] at hloop
    split_ifs with hc
    · rw [if_pos hc] at hloop
      exact ⟨xs, rest, hl, hloop⟩
    · rw [if_neg hc] at hloop
      exact ⟨xs, rest, hl, hloop⟩

theorem plain_ok {t : Task} {q p : Pc} {e : Effect} (hplain : q.plain = true)
    (h : next s t q = some (e, p)) (hok : PcOk s.node l q)
    (hring : q.access ≠ .none → (links s.node).Ring allevents l) : PcOk s.node l p := by
  cases q with
  | user | openAlloc => cases h
  | openPrev | closeNext | closeKfree => cases hplain
  | stores todo k =>
    cases todo with
    | cons w todo => cases hplain
    | nil =>
      cases h
      cases k with
      | setCondition e n => exact hok
      | listAdd c a => exact hok
      | _ => trivial
  | openLast c a =>
    cases h
    obtain ⟨xs, rfl⟩ := hok
    exact ⟨xs, rfl, (hring (fun ha => by cases ha)).prev_last⟩
  | searchLock k i w =>
    cases h
    cases k <;> exact hok
  | searchFirst k i w =>
    cases h
    have hr := hring (fun ha => by cases ha)
    have hfirst : (s.node allevents).next = l.headD allevents := hr.next_head
    rw [hfirst]
    refine k.loopTest_ok i (fun _ ha => ha) (List.nodup_cons.mp hr.nodup).1 ?_ .inl
    rintro aim c rfl
    exact hok
  | searchId k i pos =>
    cases h
    split_ifs with hid
    · exact k.found_ok hok hid
    · exact hok
  | searchNext k i pos =>
    cases h
    have hr := hring (fun ha => by cases ha)
    obtain ⟨xs, ys, rfl⟩ := List.append_of_mem hok
    have hnext : (s.node pos).next = ys.headD allevents := hr.next_member
    have hhead := (List.nodup_cons.mp hr.nodup).1
    rw [hnext]
    exact k.loopTest_ok i (fun a ha => by simp [ha]) (fun hm => hhead (by simp [hm]))
      (fun _ _ _ => rfl) fun _ => .inr rfl
  | checkUid aim c a | checkUidFlag aim c a | checkGid aim c a | checkGidFlag aim c a
  | closeLock a n | closeCount a n =>
    cases h
    split_ifs <;> first | exact hok | trivial
  | granted aim a =>
    cases h
    cases aim with
    | close => exact hok
    | _ => trivial
  | waitTest | waitRetest | waitSignal | sigActive | sigCount =>
    cases h
    split_ifs <;> trivial
  | checkOwner c w a =>
    cases h
    split_ifs
    · exact hok
    · trivial
  | closePrev a n =>
    cases h
    exact ⟨hok, rfl⟩
  | statProbe i p junk =>
    cases h
    cases statProbe (s.user t) p with
    | none => trivial
    | some v =>
      dsimp only
      split_ifs <;> trivial
  | statUid i p v a =>
    cases h
    exact ⟨hok.1, hok.2, rfl⟩
  | statGid i p v a =>
    cases h
    exact ⟨hok.1, hok.2.1, hok.2.2, rfl⟩
  | statUidFlag i p v a =>
    cases h
    exact ⟨hok.1, hok.2.1, hok.2.2.1, hok.2.2.2, rfl⟩
  | statGidFlag i p v a =>
    cases h
    obtain ⟨ha, hid, huid, hgid, huf⟩ := hok
    intro b hb
    cases hb
    exact .inr ⟨ha, hid, by rw [events, Event.vals, huid, hgid, huf]⟩
  | statUnlock i p v w =>
    cases h
    split_ifs <;> trivial
  | infoProbe num q =>
    cases h
    split_ifs <;> trivial
  | infoFirst num q =>
    cases h
    have hr := hring (fun ha => by cases ha)
    have hfirst : (s.node allevents).next = l.headD allevents := hr.next_head
    rw [hfirst]
    exact infoTest_ok [] rfl (List.nodup_cons.mp hr.nodup).1 rfl
  | infoId num q arr check pos =>
    cases h
    exact hok
  | infoNext num q arr check pos =>
    cases h
    have hr := hring (fun ha => by cases ha)
    obtain ⟨xs, ys, rfl, hloop⟩ := hok
    have hnext : (s.node pos).next = ys.headD allevents := hr.next_member
    have hhead := (List.nodup_cons.mp hr.nodup).1
    rw [hnext]
    exact infoTest_ok (xs ++ [pos]) (by simp) (fun hm => hhead (by simp [hm])) hloop
  | _ =>
    cases h
    first | exact hok | trivial

/-- Only the stores of a section change what the lock protects, and only `kfree` frees. -/
theorem plain_apply {t : Task} {q p : Pc} {e : Effect} {m : State} (hplain : q.plain = true)
    (h : next s t q = some (e, p)) (happly : apply s t e = some m) :
    (∀ a, (m.node a).fixed = (s.node a).fixed) ∧ m.inUse = s.inUse := by
  have hkeeps := apply_keeps happly
  have hfree : ∀ a, e ≠ .kfree a := by
    rintro a rfl
    cases q with
    | stores todo k => cases todo <;> cases h
    | closeKfree => cases hplain
    | _ => cases h
  refine ⟨?_, hkeeps.inUse hfree⟩
  cases e with
  | store w =>
    cases q with
    | stores todo k => cases todo <;> cases h; cases hplain
    | waitReset e =>
      cases h
      cases happly
      exact fixed_storeAt s.node fun _ => rfl
    | _ => cases h
  | _ => exact hkeeps.fixed fun w hw => by cases hw

end

/-! ### One step keeps the invariant -/

section
variable {s m : State} {l l' : List Addr} {t : Task} {p : Pc}

theorem Inv.of_goto (hi : Inv s l) (hpc : m.pc = s.pc)
    (hlock : m.lock.Agrees (Function.update (fun u => (s.pc u).access) t p.access))
    (hself : p.access = .write → (links (storeAll m.node p.todo)).Ring allevents l')
    (hothers : ∀ u, u ≠ t → (s.pc u).access = .write →
      (links (storeAll m.node (s.pc u).todo)).Ring allevents l')
    (hfree : p.access ≠ .write → (∀ u, u ≠ t → (s.pc u).access ≠ .write) →
      (links m.node).Ring allevents l')
    (hused : ∀ a ∈ allevents :: l', m.inUse a = true)
    (hown : ∀ a, p.owns = some a → m.inUse a = true ∧ a ∉ allevents :: l')
    (howns : ∀ u, u ≠ t → ∀ a, (s.pc u).owns = some a →
      (m.inUse a = true ∧ a ∉ allevents :: l') ∧ p.owns ≠ some a)
    (hok : PcOk m.node l' p) (hoks : ∀ u, u ≠ t → PcOk m.node l' (s.pc u)) :
    Inv (m.goto t p) l' := by
  have hthere : ∀ u, u ≠ t → (m.goto t p).pc u = s.pc u := fun u hu => by
    rw [goto_pc_of_ne hu, hpc]
  refine ⟨agrees_goto hpc hlock, ?_, ?_, hused, ?_, ?_, ?_⟩
  · intro u hw
    by_cases hu : u = t
    · rw [hu, goto_pc] at hw ⊢
      exact hself hw
    · rw [hthere u hu] at hw ⊢
      exact hothers u hu hw
  · intro hnone
    refine hfree (by simpa using hnone t) fun u hu => ?_
    rw [← hthere u hu]
    exact hnone u
  · intro u a ha
    by_cases hu : u = t
    · rw [hu, goto_pc] at ha
      exact hown a ha
    · rw [hthere u hu] at ha
      exact (howns u hu a ha).1
  · intro u v a ha hb
    by_cases hu : u = t
    · by_cases hv : v = t
      · rw [hu, hv]
      · rw [hu, goto_pc] at ha
        rw [hthere v hv] at hb
        exact absurd ha (howns v hv a hb).2
    · rw [hthere u hu] at ha
      by_cases hv : v = t
      · rw [hv, goto_pc] at hb
        exact absurd hb (howns u hu a ha).2
      · rw [hthere v hv] at hb
        exact hi.apart u v a ha hb
  · intro u
    by_cases hu : u = t
    · rw [hu, goto_pc]
      exact hok
    · rw [hthere u hu]
      exact hoks u hu

theorem PcOk.closes_mem {node : Addr → Node} {q : Pc} {e : Addr} (h : PcOk node l q)
    (hc : q.closes = some e) : e ∈ l := by
  cases q with
  | stores todo k =>
    cases k with
    | setCondition a n =>
      cases hc
      exact h
    | _ => cases hc
  | granted aim a =>
    cases aim <;> cases hc
    exact h
  | closeActive a | closeLock a n | closeCount a n | closeWake a n | closePrev a n =>
    cases hc
    exact h
  | closeNext a n prev =>
    cases hc
    exact h.1
  | _ => cases hc

/-- The lock does not change hands in a step that keeps the task's access. -/
theorem Inv.same_lock (hi : Inv s l) (hacc : p.access = (s.pc t).access) :
    s.lock.Agrees (Function.update (fun u => (s.pc u).access) t p.access) := by
  rw [hacc, Function.update_eq_self]
  exact hi.lock

theorem Inv.ring_at (hi : Inv s l) (htodo : (s.pc t).todo = [])
    (hothers : ∀ u, u ≠ t → (s.pc u).access ≠ .write) : (links s.node).Ring allevents l := by
  by_cases hw : (s.pc t).access = .write
  · have hr := hi.settled t hw
    rw [htodo] at hr
    exact hr
  · refine hi.free fun u => ?_
    by_cases hu : u = t
    · rw [hu]
      exact hw
    · exact hothers u hu

/-- Whoever holds the lock and owes nothing finds the ring in memory. -/
theorem Inv.ring_held (hi : Inv s l) (htodo : (s.pc t).todo = []) (hheld : (s.pc t).access ≠ .none) :
    (links s.node).Ring allevents l := by
  refine hi.ring_at htodo fun u hu => ?_
  cases hacc : (s.pc t).access with
  | none => exact absurd hacc hheld
  | read => exact hi.lock.no_writer hacc u
  | write =>
    rw [hi.lock.other hacc hu]
    decide

theorem Inv.plain (hi : Inv s l) (hpc : m.pc = s.pc)
    (hfixed : ∀ a, (m.node a).fixed = (s.node a).fixed) (hinUse : m.inUse = s.inUse)
    (hlock : m.lock.Agrees (Function.update (fun u => (s.pc u).access) t p.access))
    (howns : p.owns = (s.pc t).owns) (htodo : (s.pc t).todo = [])
    (hlinks : ∀ w ∈ p.todo, w.2.isLink = false) (hok : PcOk s.node l p) : Inv (m.goto t p) l := by
  have hlinks' := links_of_fixed hfixed
  have hkeep : ∀ q, PcOk s.node l q → PcOk m.node l q := fun q hq =>
    hq.frame (fun _ => ⟨rfl, fun a _ => hfixed a⟩) fun _ he => hq.closes_mem he
  refine hi.of_goto hpc hlock ?_ ?_ ?_ ?_ ?_ ?_ (hkeep p hok) fun u _ => hkeep _ (hi.pcs u)
  · intro hw
    -- The task writes after the step, so nobody else did before it.
    rw [links_storeAll hlinks, hlinks']
    refine hi.ring_at htodo fun u hu => ?_
    have hnone := hlock.other (t := t) (u := u) (by rw [Function.update_self, hw]) hu
    rw [Function.update_of_ne hu] at hnone
    rw [hnone]
    decide
  · intro u _ hw
    rw [links_storeAll_congr hlinks']
    exact hi.settled u hw
  · intro _ hothers
    rw [hlinks']
    exact hi.ring_at htodo hothers
  · rw [hinUse]
    exact hi.used
  · intro a ha
    rw [hinUse]
    exact hi.owned t a (howns ▸ ha)
  · intro u hu a ha
    rw [hinUse]
    refine ⟨hi.owned u a ha, fun hp => hu ?_⟩
    exact hi.apart u t a ha (howns ▸ hp)

/-- A store by a writer, who owes one store less after it. -/
theorem Inv.store {w : Addr × Store} {todo : List (Addr × Store)} {k : Storing} (hi : Inv s l)
    (hpc : s.pc t = .stores (w :: todo) k) (hk : k.access = .write) :
    Inv ({ s with node := storeAt s.node w }.goto t (.stores todo k)) l := by
  have hw : (s.pc t).access = .write := by
    rw [hpc]
    exact hk
  have hnone : ∀ u, u ≠ t → (s.pc u).access = .none := fun u hu => hi.lock.other hw hu
  have howns : (Pc.stores todo k).owns = (s.pc t).owns := by
    rw [hpc]
    cases k <;> rfl
  have hring := hi.settled t hw
  refine hi.of_goto rfl (hi.same_lock (hw ▸ hk)) (fun _ => ?_) ?_ ?_ hi.used ?_ ?_ ?_ ?_
  · rw [hpc] at hring
    cases k with
    | initListHead => cases hk
    | _ => exact hring
  · intro u hu hwu
    rw [hnone u hu] at hwu
    cases hwu
  · exact fun hp => absurd hk hp
  · exact fun a ha => hi.owned t a (howns ▸ ha)
  · exact fun u hu a ha => ⟨hi.owned u a ha, fun hp => hu (hi.apart u t a ha (howns ▸ hp))⟩
  · have hok := hi.pcs t
    rw [hpc] at hok
    cases k with
    | initListHead => cases hk
    | setCondition | listAdd => exact hok
    | _ => trivial
  · exact fun u hu => (hi.pcs u).frame (fun h => absurd (hnone u hu) h)
      fun e he => (hi.pcs u).closes_mem he

theorem Inv.init_store {w : Addr × Store} {todo : List (Addr × Store)} {c : Cred} {a : Addr}
    (hi : Inv s l) (hpc : s.pc t = .stores (w :: todo) (.initListHead c a)) :
    Inv ({ s with node := storeAt s.node w }.goto t (.stores todo (.initListHead c a))) l := by
  have hok := hi.pcs t
  rw [hpc] at hok
  have hwa : w.1 = a := hok w (List.mem_cons_self ..)
  have hown : (s.pc t).owns = some a := by rw [hpc]; rfl
  -- Another task may be a writer at the same time, but the ring does not reach the record.
  have hsame : ∀ b ∈ allevents :: l, storeAt s.node w b = s.node b := fun b hb =>
    storeAt_of_ne s.node w fun he => (hi.owned t a hown).2 (hwa ▸ he ▸ hb)
  have hring : ∀ pending, (links (storeAll s.node pending)).Ring allevents l →
      (links (storeAll (storeAt s.node w) pending)).Ring allevents l := by
    intro pending hr
    refine hr.congr fun b hb => ?_
    have hb' := storeAll_congr (hsame b hb) pending
    exact ⟨congrArg Node.next hb', congrArg Node.prev hb'⟩
  refine hi.of_goto rfl (hi.same_lock (by rw [hpc]; rfl)) ?_ ?_ ?_ hi.used ?_ ?_ ?_ ?_
  · intro hw
    cases hw
  · exact fun u _ hw => hring _ (hi.settled u hw)
  · exact fun _ hothers => hring [] (hi.ring_at (by rw [hpc]; rfl) hothers)
  · exact fun b hb => hi.owned t b (by rw [hpc]; exact hb)
  · exact fun u hu b hb => ⟨hi.owned u b hb, fun hp => hu (hi.apart u t b hb (by rw [hpc]; exact hp))⟩
  · exact fun w' hw' => hok w' (List.mem_cons_of_mem _ hw')
  · exact fun u _ => (hi.pcs u).frame
      (fun _ => ⟨rfl, fun b hb => congrArg Node.fixed (hsame b (List.mem_cons_of_mem _ hb))⟩)
      fun e he => (hi.pcs u).closes_mem he

/-- `list_add_tail` takes effect for the list when its first load has been made. -/
theorem Inv.add_tail {c : Cred} {a : Addr} (hi : Inv s l) (hpc : s.pc t = .openPrev c a) :
    Inv (s.goto t (.stores (listAdd a (s.node allevents).prev allevents) (.listAdd c a)))
      (l ++ [a]) := by
  have hw : (s.pc t).access = .write := by rw [hpc]; rfl
  have hown : (s.pc t).owns = some a := by rw [hpc]; rfl
  have hnone : ∀ u, u ≠ t → (s.pc u).access = .none := fun u hu => hi.lock.other hw hu
  obtain ⟨hinUse, hnew⟩ := hi.owned t a hown
  have hring := hi.ring_held (t := t) (by rw [hpc]; rfl) (by rw [hw]; decide)
  have hmem : ∀ b, b ∈ allevents :: (l ++ [a]) ↔ b ∈ allevents :: l ∨ b = a := by
    simp [or_assoc]
  refine hi.of_goto rfl (hi.same_lock hw.symm) (fun _ => ?_) ?_ ?_ ?_ ?_ ?_ ⟨l, rfl⟩ ?_
  · exact (links_listAdd s.node a _ _).symm ▸ hring.addTail hnew
  · intro u hu hwu
    rw [hnone u hu] at hwu
    cases hwu
  · exact fun hp => absurd rfl hp
  · intro b hb
    rcases (hmem b).mp hb with hb | rfl
    · exact hi.used b hb
    · exact hinUse
  · intro b hb
    cases hb
  · intro u hu b hb
    obtain ⟨hbUse, hbnew⟩ := hi.owned u b hb
    refine ⟨⟨hbUse, fun hm => ?_⟩, fun hp => by cases hp⟩
    rcases (hmem b).mp hm with hm | rfl
    · exact hbnew hm
    · exact hu (hi.apart u t b hb hown)
  · exact fun u hu => (hi.pcs u).frame (fun h => absurd (hnone u hu) h)
      fun e he => List.mem_append_left _ ((hi.pcs u).closes_mem he)

end

/-- No two tasks have validated one event for close and not yet unlinked it. -/
def ClosesApart (s : State) : Prop :=
  ∀ t u e, (s.pc t).closes = some e → (s.pc u).closes = some e → t = u

section
variable {s m : State} {l : List Addr} {t : Task} {p : Pc}

/-- So does `list_del_init` after its second load. -/
theorem Inv.del_init {e prev : Addr} {n : ℕ} (hi : Inv s l) (hpc : s.pc t = .closeNext e n prev)
    (hapart : ClosesApart s) :
    Inv (s.goto t (.stores (listDelInit e prev (s.node e).next) (.listDelInit e n))) (l.erase e) := by
  have hw : (s.pc t).access = .write := by rw [hpc]; rfl
  have hcloses : (s.pc t).closes = some e := by rw [hpc]; rfl
  have hnone : ∀ u, u ≠ t → (s.pc u).access = .none := fun u hu => hi.lock.other hw hu
  have hok := hi.pcs t
  rw [hpc] at hok
  obtain ⟨he, rfl⟩ := hok
  have hring := hi.ring_held (t := t) (by rw [hpc]; rfl) (by rw [hw]; decide)
  obtain ⟨hhead, hnodup⟩ := List.nodup_cons.mp hring.nodup
  have hsub : ∀ b ∈ allevents :: l.erase e, b ∈ allevents :: l := by
    intro b hb
    rcases List.mem_cons.mp hb with rfl | hb
    · exact List.mem_cons_self ..
    · exact List.mem_cons_of_mem _ (List.mem_of_mem_erase hb)
  refine hi.of_goto rfl (hi.same_lock hw.symm) (fun _ => ?_) ?_ ?_ ?_ ?_ ?_ trivial ?_
  · exact (links_listDelInit s.node e _ _).symm ▸ hring.unlink he
  · intro u hu hwu
    rw [hnone u hu] at hwu
    cases hwu
  · exact fun hp => absurd rfl hp
  · exact fun b hb => hi.used b (hsub b hb)
  · intro b hb
    cases hb
    refine ⟨hi.used e (List.mem_cons_of_mem _ he), fun hm => ?_⟩
    rcases List.mem_cons.mp hm with rfl | hm
    · exact hhead he
    · exact hnodup.not_mem_erase hm
  · intro u hu b hb
    obtain ⟨hbUse, hbnew⟩ := hi.owned u b hb
    refine ⟨⟨hbUse, fun hm => hbnew (hsub b hm)⟩, fun hp => ?_⟩
    cases hp
    exact hbnew (List.mem_cons_of_mem _ he)
  · refine fun u hu => (hi.pcs u).frame (fun h => absurd (hnone u hu) h) fun b hb => ?_
    -- A close that has validated the event and waits for the lock would now lose it.
    refine (List.mem_erase_of_ne ?_).mpr ((hi.pcs u).closes_mem hb)
    rintro rfl
    exact hu (hapart u t b hb hcloses)

theorem Inv.kfree {e : Addr} {n : ℕ} (hi : Inv s l) (hpc : s.pc t = .closeKfree e n) :
    Inv ({ s with inUse := Function.update s.inUse e false }.goto t (.ret n)) l := by
  have hown : (s.pc t).owns = some e := by rw [hpc]; rfl
  have hout := (hi.owned t e hown).2
  have hkeep : ∀ b, b ≠ e → Function.update s.inUse e false b = s.inUse b := fun b hb =>
    Function.update_of_ne hb ..
  refine hi.of_goto rfl (hi.same_lock (by rw [hpc]; rfl)) ?_ (fun u _ => hi.settled u) ?_ ?_ ?_ ?_
    trivial fun u _ => hi.pcs u
  · intro hw
    cases hw
  · exact fun _ hothers => hi.ring_at (by rw [hpc]; rfl) hothers
  · intro b hb
    have hbe : b ≠ e := fun he => hout (he ▸ hb)
    exact (hkeep b hbe).trans (hi.used b hb)
  · intro b hb
    cases hb
  · intro u hu b hb
    have hbe : b ≠ e := fun he => hu (hi.apart u t b hb (he ▸ hown))
    obtain ⟨hbUse, hbnew⟩ := hi.owned u b hb
    exact ⟨⟨(hkeep b hbe).trans hbUse, hbnew⟩, fun hp => by cases hp⟩

theorem Inv.call (hi : Inv s l) (hpc : s.pc t = .user) (c : Cred) (k : Call) :
    Inv (s.goto t (entry c k)) l := by
  have hp := entry_holds c k
  refine hi.plain rfl (fun _ => rfl) rfl (hi.same_lock (by rw [hp.access, hpc]; rfl))
    (by rw [hp.owns, hpc]; rfl) (by rw [hpc]; rfl) hp.no_links ?_
  cases k <;> simp only [entry] <;> (try split_ifs) <;> trivial

theorem Inv.kmalloc {c : Cred} {a : Addr} (hi : Inv s l) (hpc : s.pc t = .openAlloc c)
    (hfree : s.inUse a = false) :
    Inv ({ s with inUse := Function.update s.inUse a true }.goto t
      (.stores (initListHead a) (.initListHead c a))) l := by
  have hkeep : ∀ b, s.inUse b = true → Function.update s.inUse a true b = true := by
    intro b hb
    by_cases hba : b = a
    · rw [hba, Function.update_self]
    · rw [Function.update_of_ne hba, hb]
  have hne : ∀ b, s.inUse b = true → b ≠ a := by
    rintro b hb rfl
    rw [hfree] at hb
    cases hb
  refine hi.of_goto rfl (hi.same_lock (by rw [hpc]; rfl)) ?_ (fun u _ => hi.settled u) ?_ ?_ ?_ ?_
    ?_ fun u _ => hi.pcs u
  · intro hw
    cases hw
  · exact fun _ hothers => hi.ring_at (by rw [hpc]; rfl) hothers
  · exact fun b hb => hkeep b (hi.used b hb)
  · intro b hb
    cases hb
    exact ⟨Function.update_self .., fun hm => hne a (hi.used a hm) rfl⟩
  · intro u _ b hb
    obtain ⟨hbUse, hbnew⟩ := hi.owned u b hb
    refine ⟨⟨hkeep b hbUse, hbnew⟩, fun hp => ?_⟩
    cases hp
    exact hne a hbUse rfl
  · simp [PcOk, initListHead]

def ApartStep (s : State) (_ : Action) : Prop := ClosesApart s

inductive Edit where
  | add (a : Addr)
  | remove (a : Addr)
  deriving DecidableEq, Repr

def Edit.act (l : List Addr) : Edit → List Addr
  | .add a => l ++ [a]
  | .remove a => l.erase a

/-- What a step does to the sequence of live events: an event is live from the step before
the stores of `list_add_tail` to the step before those of `list_del_init`. -/
def edits (s : State) : Action → List Edit
  | .run t =>
    match s.pc t with
    | .openPrev _ a => [.add a]
    | .closeNext e _ _ => [.remove e]
    | _ => []
  | _ => []

theorem edits_of_plain (hplain : (s.pc t).plain = true) : edits s (.run t) = [] := by
  rw [edits]
  cases hpc : s.pc t with
  | openPrev | closeNext => rw [hpc] at hplain; cases hplain
  | _ => rfl

theorem Inv.step {s' : State} {x : Action} (hi : Inv s l) (hok : ApartStep s x)
    (h : Locked.step s x = some s') : Inv s' ((edits s x).foldl Edit.act l) := by
  cases Move.of_step h with
  | call t c k hpc => exact hi.call hpc c k
  | nomem t c hpc =>
    exact hi.plain rfl (fun _ => rfl) rfl (hi.same_lock (by rw [hpc]; rfl)) (by rw [hpc]; rfl)
      (by rw [hpc]; rfl) (List.forall_mem_nil _) trivial
  | kmalloc t c a hpc hfree => exact hi.kmalloc hpc hfree
  | posix t | deliver t hpc =>
    exact ⟨hi.lock, hi.settled, hi.free, hi.used, hi.owned, hi.apart, hi.pcs⟩
  | run t e p m hrq hnext happly =>
    by_cases hplain : (s.pc t).plain = true
    · obtain ⟨hnode, hinUse⟩ := plain_apply hplain hnext happly
      have hpass := next_passes hnext
      have htodo := plain_todo hplain
      rw [edits_of_plain hplain]
      exact hi.plain (apply_pc happly) hnode hinUse
        (Agrees.apply hi.lock hpass.shifts happly) (hpass.owns hplain) htodo (hpass.no_links hplain)
        (plain_ok hplain hnext (hi.pcs t) (hi.ring_held htodo))
    · rw [edits]
      generalize hpc : s.pc t = q at hnext hplain
      cases q with
      | openPrev c a =>
        cases hnext
        cases happly
        exact hi.add_tail hpc
      | closeNext e n prev =>
        cases hnext
        cases happly
        exact hi.del_init hpc hok
      | closeKfree e n =>
        cases hnext
        cases happly
        exact hi.kfree hpc
      | stores todo k =>
        cases todo with
        | nil => exact absurd rfl hplain
        | cons w todo =>
          cases hnext
          cases happly
          cases k with
          | initListHead c a => exact hi.init_store hpc
          | _ => exact hi.store hpc rfl
      | _ => exact absurd rfl hplain

theorem Inv.init (node : Addr → Node) (user : Task → UserMem) : Inv (doeventInit node user) [] where
  lock := RwLock.agrees_free
  settled := fun t hw => by cases hw
  free := fun _ => Links.ring_nil (by simp [links, doeventInit]) (by simp [links, doeventInit])
  used := fun a ha => by simpa [doeventInit] using ha
  owned := fun t a ha => by cases ha
  apart := fun t u a ha => by cases ha
  pcs := fun t => trivial

theorem Inv.exists_step {s' : State} {x : Action} (hi : ∃ l, Inv s l) (hok : ApartStep s x)
    (h : Locked.step s x = some s') : ∃ l, Inv s' l := by
  obtain ⟨l, hi⟩ := hi
  exact ⟨_, hi.step hok h⟩

theorem inv_reachable {node : Addr → Node} {user : Task → UserMem} {xs : List Action}
    (h : Run Locked.step ApartStep (doeventInit node user) xs s) : ∃ l, Inv s l :=
  h.invariant (fun s => ∃ l, Inv s l) ⟨[], .init node user⟩ fun _ _ _ => Inv.exists_step

end

end DoEvent.Locked
