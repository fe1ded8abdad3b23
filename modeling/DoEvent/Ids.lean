import Mathlib.Order.Bounds.Basic
import DoEvent.Pointers
import DoEvent.Transition.Run

/-!
# Event ids over whole runs

`sys_doeventopen` never looks at the largest id: it copies the id of the ring's last node
and adds one. Along the list the ids stay non-negative and strictly increasing, since
close only ever removes a node, so the last id is the largest one.
-/

namespace DoEvent

open Transition

def State.idOf (s : State) (a : Addr) : Int := (s.mem a).id.toInt

/-- The id of the last listed event has reached 2^31-1. -/
def IdsExhausted (s : State) : Prop := (s.mem (lastEvent s)).id = Int32.maxValue

instance (s : State) : Decidable (IdsExhausted s) := inferInstanceAs (Decidable (_ = _))

/-- A close that has looked the event up and has not yet passed it to `kfree`. -/
def State.closes (s : State) (t : Task) (a : Addr) : Prop :=
  s.holds t .unlinking a ∨ s.holds t .freeing a

/-- No two closes of the same event overlap. -/
def ClosesApart (s : State) : Prop := ∀ t u a, s.closes t a → s.closes u a → t = u

/-- The schedules of this module: closes of one event do not overlap and the last id has
not reached the end of the range. -/
def OrderlyStep (s : State) (_ : Action) : Prop := ClosesApart s ∧ ¬ IdsExhausted s

structure IdsInv (s : State) : Prop where
  sentinel : (s.mem allevents).id = -1
  nonneg : ∀ a ∈ s.eventlist, 0 ≤ s.idOf a
  sorted : s.eventlist.Pairwise fun a b => s.idOf a < s.idOf b

theorem toInt_succ (x : Int32) (h : x ≠ Int32.maxValue) : (x + 1).toInt = x.toInt + 1 := by
  have hlt := Int32.toInt_lt x
  have hle := Int32.le_toInt x
  have hne : x.toInt ≠ 2147483647 := fun he => h (Int32.toInt_inj.mp (by rw [he]; rfl))
  have hone : (1 : Int32).toInt = 1 := rfl
  rw [Int32.toInt_add, hone, Int.bmod_eq_of_le] <;> omega

theorem ClosesApart.unlinksAlone {s : State} (h : ClosesApart s) (x : Action) : UnlinksAlone s x := by
  rintro a ⟨t, process, rfl, hpc⟩ u hu hold
  have ht : s.closes t a := .inl (holds_of_pc hpc rfl)
  exact hu (h u t a (.inl hold) ht)

theorem doeventInit_idsInv (mem : Addr → Event) (user : Task → UserMem) :
    IdsInv (doeventInit mem user) where
  sentinel := by simp [doeventInit]
  nonneg := fun a ha => absurd ha List.not_mem_nil
  sorted := List.Pairwise.nil

/-! ### The last node carries the largest id -/

theorem lastEvent_nil {s : State} (h : s.eventlist = []) : lastEvent s = allevents := by
  simp [lastEvent, h]

theorem lastEvent_mem {s : State} (h : s.eventlist ≠ []) : lastEvent s ∈ s.eventlist := by
  have he : s.eventlist.getLast? = some (s.eventlist.getLast h) := List.getLast?_eq_some_getLast h
  simp only [lastEvent, he, Option.getD_some]
  exact List.getLast_mem h

theorem IdsInv.le_last {s : State} (hi : IdsInv s) {a : Addr} (ha : a ∈ s.eventlist) :
    s.idOf a ≤ s.idOf (lastEvent s) := by
  have hne : s.eventlist ≠ [] := List.ne_nil_of_mem ha
  have he : s.eventlist.getLast? = some (s.eventlist.getLast hne) :=
    List.getLast?_eq_some_getLast hne
  have hlast : lastEvent s = s.eventlist.getLast hne := by simp [lastEvent, he]
  have hsplit := List.dropLast_append_getLast hne
  have hpair := hi.sorted
  rw [← hsplit, List.pairwise_append] at hpair
  rw [← hsplit, List.mem_append, List.mem_singleton] at ha
  rcases ha with ha | ha
  · rw [hlast]
    exact Int.le_of_lt (hpair.2.2 a ha _ (List.mem_singleton_self _))
  · rw [ha, hlast]

theorem IdsInv.lt_issued {s : State} (hi : IdsInv s) (hfull : ¬ IdsExhausted s) {a : Addr}
    (ha : a ∈ s.eventlist) : s.idOf a < ((s.mem (lastEvent s)).id + 1).toInt := by
  rw [toInt_succ _ hfull]
  have := hi.le_last ha
  simp only [State.idOf] at this ⊢
  omega

/-- The id that open issues: one more than the largest live id, or 0. -/
theorem IdsInv.issued {s : State} (hi : IdsInv s) (hfull : ¬ IdsExhausted s) :
    (s.eventlist = [] → ((s.mem (lastEvent s)).id + 1).toInt = 0) ∧
    (s.eventlist ≠ [] → IsGreatest {i | ∃ b ∈ s.eventlist, s.idOf b = i}
      (((s.mem (lastEvent s)).id + 1).toInt - 1)) := by
  constructor
  · intro h
    rw [lastEvent_nil h, hi.sentinel]
    rfl
  · intro h
    rw [toInt_succ _ hfull, Int.add_sub_cancel]
    refine ⟨⟨lastEvent s, lastEvent_mem h, rfl⟩, ?_⟩
    rintro i ⟨b, hb, rfl⟩
    exact hi.le_last hb

/-! ### Preservation -/

theorem IdsInv.step_of_fresh {s s' : State} {x : Action} (hi : IdsInv s)
    (hfresh : ∀ t a, s.holds t .opening a → a ∉ s.eventlist ∧ a ≠ allevents)
    (hroom : ∀ a, Creates s x a → ¬ IdsExhausted s) (h : step s x = some s') : IdsInv s' := by
  obtain ⟨e, p, hm, rfl⟩ := step_eq_some.mp h
  have ho := hm.origin
  cases e with
  | openSection c a =>
    have hfull := hroom a hm.creates
    obtain ⟨hpc, rfl⟩ := ho
    obtain ⟨hal, has⟩ := hfresh x.task a (holds_of_pc hpc rfl)
    have hid : ∀ b, b ≠ a → ((apply s x.task (.openSection c a)).goto x.task (.openRet a)).idOf b =
        s.idOf b := by
      intro b hb
      simp [State.idOf, apply_id, hb]
    have hida : ((apply s x.task (.openSection c a)).goto x.task (.openRet a)).idOf a =
        ((s.mem (lastEvent s)).id + 1).toInt := by
      simp only [State.idOf, goto_mem, apply_id, if_true]
    have hold : ∀ b ∈ s.eventlist, b ≠ a := fun b hb he => hal (he ▸ hb)
    refine ⟨?_, ?_, ?_⟩
    · simpa [apply_id, Ne.symm has] using hi.sentinel
    · intro b hb
      simp only [goto_eventlist, apply_eventlist, List.mem_append, List.mem_singleton] at hb
      rcases hb with hb | rfl
      · rw [hid b (hold b hb)]
        exact hi.nonneg b hb
      · rw [hida]
        by_cases hn : s.eventlist = []
        · exact le_of_eq ((hi.issued hfull).1 hn).symm
        · have h0 := hi.nonneg _ (lastEvent_mem hn)
          have h1 := hi.lt_issued hfull (lastEvent_mem hn)
          omega
    · simp only [goto_eventlist, apply_eventlist, List.pairwise_append]
      refine ⟨?_, List.pairwise_singleton _ _, ?_⟩
      · refine hi.sorted.imp_of_mem ?_
        intro b d hb hd hlt
        rw [hid b (hold b hb), hid d (hold d hd)]
        exact hlt
      · intro b hb d hd
        rw [List.mem_singleton] at hd
        subst hd
        rw [hid b (hold b hb), hida]
        exact hi.lt_issued hfull hb
  | closeSection a process =>
    -- the ids stay, and a sublist of a sorted list is sorted
    have hid : ∀ b, ((apply s x.task (.closeSection a process)).goto x.task p).idOf b = s.idOf b := by
      intro b
      simp [State.idOf, apply_id]
    refine ⟨by simpa [apply_id] using hi.sentinel, ?_, ?_⟩
    · intro b hb
      simp only [goto_eventlist, apply_eventlist] at hb
      rw [hid]
      exact hi.nonneg b (List.mem_of_mem_erase hb)
    · simp only [goto_eventlist, apply_eventlist, hid]
      exact hi.sorted.sublist List.erase_sublist
  | _ =>
    refine ⟨?_, ?_, ?_⟩
    · simpa [apply_id] using hi.sentinel
    · simpa [State.idOf, apply_id, apply_eventlist] using hi.nonneg
    · simpa [State.idOf, apply_id, apply_eventlist] using hi.sorted

theorem IdsInv.step {s s' : State} {x : Action} (hi : IdsInv s) (hl : ListInv s)
    (hfull : ¬ IdsExhausted s) (h : step s x = some s') : IdsInv s' :=
  hi.step_of_fresh (fun t a ha => (hl.owned t a (.inl ha)).2) (fun _ _ => hfull) h

theorem orderly_run_inv {s s' : State} {xs : List Action} (h : Run step OrderlyStep s xs s')
    (hl : ListInv s) (hi : IdsInv s) : ListInv s' ∧ IdsInv s' :=
  h.invariant (fun s => ListInv s ∧ IdsInv s) ⟨hl, hi⟩ fun _ x _ hinv hok hstep =>
    ⟨hinv.1.step (hok.1.unlinksAlone x) hstep, hinv.2.step hinv.1 hok.2 hstep⟩

/-- A listed event stays listed under its id until a close unlinks it. -/
theorem listed_step {s s' : State} {x : Action} {b : Addr} (hl : ListInv s)
    (hb : b ∈ s.eventlist) (h : step s x = some s') :
    (b ∈ s'.eventlist ∧ s'.idOf b = s.idOf b) ∨ Unlinks s x b := by
  obtain ⟨e, p, hm, rfl⟩ := step_eq_some.mp h
  have ho := hm.origin
  cases e with
  | openSection c a =>
    obtain ⟨hpc, rfl⟩ := ho
    have hal := (hl.owned x.task a (.inl (holds_of_pc hpc rfl))).2.1
    have hba : b ≠ a := fun he => hal (he ▸ hb)
    exact .inl ⟨by simp [apply_eventlist, hb], by simp [State.idOf, apply_id, hba]⟩
  | closeSection a process =>
    by_cases hba : b = a
    · subst hba
      exact .inr hm.unlinks
    · refine .inl ⟨?_, by simp [State.idOf, apply_id]⟩
      simpa [apply_eventlist, List.mem_erase_of_ne hba] using hb
  | _ =>
    exact .inl ⟨by simpa [apply_eventlist] using hb, by simp [State.idOf, apply_id]⟩

theorem listed_run {s s' : State} {xs : List Action} {b : Addr} (h : Run step OrderlyStep s xs s')
    (hl : ListInv s) (hb : b ∈ s.eventlist) :
    (b ∈ s'.eventlist ∧ s'.idOf b = s.idOf b) ∨
    ∃ ys x zs m, xs = ys ++ x :: zs ∧ Run step OrderlyStep s ys m ∧ Unlinks m x b := by
  have hkeep := h.keep_or (fun m => ListInv m ∧ b ∈ m.eventlist ∧ m.idOf b = s.idOf b)
    (fun m x => Unlinks m x b) ⟨hl, hb, rfl⟩ ?_
  · exact hkeep.imp_left fun hq => hq.2
  · intro m x m' hinv hok hstep
    obtain ⟨hlm, hbm, him⟩ := hinv
    rcases listed_step hlm hbm hstep with ⟨hb', hi'⟩ | hu
    · exact .inl ⟨hlm.step (hok.1.unlinksAlone x) hstep, hb', hi'.trans him⟩
    · exact .inr hu

/-- Ids are ordered and unique in every reachable state, open issues one more than the
largest live id, and an id at or below that of an event listed earlier in the run is
issued only after a close has unlinked that event. -/
theorem event_ids_ordered (mem : Addr → Event) (user : Task → UserMem) (xs : List Action)
    (s : State) (hrun : Run step OrderlyStep (doeventInit mem user) xs s) :
    (s.mem allevents).id = -1 ∧
    (∀ a ∈ s.eventlist, 0 ≤ s.idOf a) ∧
    (s.eventlist.Pairwise fun a b => s.idOf a < s.idOf b) ∧
    (s.eventlist.map s.idOf).Nodup ∧
    ∀ t c a s', s.pc t = .openWrite c a → ¬ IdsExhausted s → step s (.run t) = some s' →
      (s.eventlist = [] → s'.idOf a = 0) ∧
      (s.eventlist ≠ [] → IsGreatest {i | ∃ b ∈ s.eventlist, s.idOf b = i} (s'.idOf a - 1)) ∧
      ∀ ys zs m b, xs = ys ++ zs → Run step OrderlyStep (doeventInit mem user) ys m →
        Run step OrderlyStep m zs s → b ∈ m.eventlist → s'.idOf a ≤ m.idOf b →
        ∃ zs₁ x zs₂ n, zs = zs₁ ++ x :: zs₂ ∧ Run step OrderlyStep m zs₁ n ∧ Unlinks n x b := by
  obtain ⟨hl, hi⟩ := orderly_run_inv hrun (doeventInit_listInv mem user) (doeventInit_idsInv mem user)
  refine ⟨hi.sentinel, hi.nonneg, hi.sorted, ?_, ?_⟩
  · rw [List.Nodup, List.pairwise_map]
    exact hi.sorted.imp fun hlt => Int.ne_of_lt hlt
  · intro t c a s' hpc hfull hstep
    have hid : s'.idOf a = ((s.mem (lastEvent s)).id + 1).toInt := by
      obtain ⟨e, p, hm, rfl⟩ := step_eq_some.mp hstep
      cases hm with
      | run t e p hrq hnext =>
        rw [hpc] at hnext
        cases hnext
        simp only [State.idOf, goto_mem, apply_id, if_true]
    rw [hid]
    refine ⟨(hi.issued hfull).1, (hi.issued hfull).2, ?_⟩
    intro ys zs m b _ hpre hpost hb hle
    obtain ⟨hlm, _⟩ :=
      orderly_run_inv hpre (doeventInit_listInv mem user) (doeventInit_idsInv mem user)
    rcases listed_run hpost hlm hb with ⟨hbs, hsame⟩ | hu
    · have hlt := hi.lt_issued hfull hbs
      omega
    · exact hu

/-! ### A run that closes the last event and issues its id again -/

/-- Ids 0 and 1 are issued, the second event is closed, and a third open is about to number
its record, which got the freed address. -/
def reissueRun : List Action :=
  opens 0 rootCred 1 ++ opens 0 rootCred 2 ++ [.call 0 rootCred (.doeventclose 1)] ++ runs 0 5 ++
    [.call 0 rootCred .doeventopen, .kmalloc 0 (some 2)]

theorem closesApart_of_solo {s : State} (h : s.idleFrom 1) : ClosesApart s := by
  have hc : ∀ u a, s.closes u a → u = 0 := by
    intro u a hu
    by_contra hne
    rcases hu with hu | hu <;> rw [State.holds, h u (Nat.pos_of_ne_zero hne)] at hu <;> cases hu
  exact fun u v a hu hv => (hc u a hu).trans (hc v a hv).symm

theorem reissueRun_orderly :
    ∃ s, Run step OrderlyStep boot reissueRun s ∧ s.eventlist = [1] ∧
      s.pc 0 = .openWrite rootCred 2 ∧ (s.sched 0).onRq = true ∧ ¬ IdsExhausted s := by
  obtain ⟨s, hr, _, ht⟩ := run_of_idle_test OrderlyStep reissueRun 1
    (fun s _ => decide (¬ IdsExhausted s))
    (fun s => decide (s.eventlist = [1] ∧ s.pc 0 = .openWrite rootCred 2 ∧
      (s.sched 0).onRq = true ∧ ¬ IdsExhausted s))
    (by decide) (boot_idleFrom 1) fun s x hi h => ⟨closesApart_of_solo hi, of_decide_eq_true h⟩
  exact ⟨s, hr, of_decide_eq_true ht⟩

theorem event_ids_ordered_reissue :
    ∃ s s', Run step OrderlyStep boot reissueRun s ∧ step s (.run 0) = some s' ∧
      (s.mem allevents).id = -1 ∧
      IsGreatest {i | ∃ b ∈ s.eventlist, s.idOf b = i} (s'.idOf 2 - 1) := by
  obtain ⟨s, hr, hlist, hpc, hrq, hfull⟩ := reissueRun_orderly
  have hstep : step s (.run 0) = some ((apply s 0 (.openSection rootCred 2)).goto 0 (.openRet 2)) := by
    simp [step, hrq, hpc, next]
  obtain ⟨hsent, _, _, _, hopen⟩ := event_ids_ordered bootMem bootUser reissueRun s hr
  obtain ⟨_, hmax, _⟩ := hopen 0 rootCred 2 _ hpc hfull hstep
  exact ⟨s, _, hr, hstep, hsent, hmax (by simp [hlist])⟩

end DoEvent
