import DoEvent.Copies
import DoEvent.Effects
import Mathlib.Data.List.Perm.Subperm
import Mathlib.Algebra.Order.Ring.Nat

/-!
# Calls that only look at the list

Info and stat read the list and write user memory; chown and chmod of an id that no event
has write nothing. The uninitialised cursor of chown, chmod and stat matters only when the
list is empty.
-/

namespace DoEvent

open Transition

/-! ### Ids that no event has -/

theorem searchLoop_unknown {mem : Addr → Event} {i : Int32} {l : List Addr} {junk : Option Addr}
    (h : ∀ a ∈ l, (mem a).id ≠ i) (hjunk : l ≠ [] ∨ junk = none) : searchLoop mem i junk l = none := by
  have hnone : searchLoop mem i none l = none := by
    rw [searchLoop_null, List.find?_eq_none]
    simpa using h
  rcases hjunk with hl | rfl
  · rw [searchLoop_junk mem i junk hl, hnone]
  · exact hnone

theorem statLoop_fst (mem : Addr → Event) (i : Int32) (junk : Option Addr) (v : StatVals)
    (l : List Addr) : (statLoop mem i junk v l).1 = searchLoop mem i junk l := by
  induction l generalizing junk with
  | nil => rfl
  | cons a l ih =>
    rw [statLoop, searchLoop]
    split
    · rfl
    · exact ih none

/-- The owner and the flags of a record, as stat reports them. -/
def Event.vals (e : Event) : StatVals := ⟨e.uid, e.gid, e.uidFlag, e.gidFlag⟩

theorem statLoop_found {mem : Addr → Event} {i : Int32} {l : List Addr} {a : Addr}
    (h : searchLoop mem i none l = some a) (junk : Option Addr) (v : StatVals) :
    statLoop mem i junk v l = (some a, (mem a).vals) := by
  induction l generalizing junk with
  | nil => cases h
  | cons b l ih =>
    rw [searchLoop] at h
    rw [statLoop]
    split
    next hid =>
      rw [if_pos hid] at h
      cases h
      rfl
    next hid =>
      rw [if_neg hid] at h
      exact ih h none

/-- The call has exactly one outcome: it returns `r` and leaves `s'`. -/
def Outcome (s : State) (t : Task) (c : Cred) (k : Call) (s' : State) (r : Int) : Prop :=
  ∀ s₁ o, CallEnds s t c k s₁ o ↔ s₁ = s'.goto t (.ret r) ∧ o = some r

section
variable {s s' : State} {t : Task} {c : Cred} {k : Call} {i : Int32} {junk : Option Addr} {r : Int}

/-- A call that computes `(s', o)` has the outcome `r` exactly if that is what it computes. -/
theorem outcome_iff {f : State × Option Int} (hf : ∀ s₁ o, CallEnds s t c k s₁ o ↔ (s₁, o) = f) :
    Outcome s t c k s' r ↔ f = returned s' t r := by
  rw [Outcome]
  constructor
  · intro h
    obtain ⟨hs, ho⟩ := (h f.1 f.2).mp ((hf f.1 f.2).mpr rfl)
    exact Prod.ext hs ho
  · intro h s₁ o
    rw [hf, h, returned, Prod.mk.injEq]

/-- A stat that comes out of its search with a record does not return -1. -/
theorem statFinish_ne (m : UserMem) (p : StatPtrs) (v : StatVals) : (statFinish m p v).2 ≠ -1 := by
  rcases statFinish_value m p v with h | h <;> rw [h] <;> decide

end

theorem infoLoop_check (mem : Addr → Event) (num : Int32) (want : Bool) (l : List Addr)
    (arr : List Int32) (check : Int32) :
    (infoLoop mem num want l arr check).2 = check + Int32.ofNat l.length := by
  induction l generalizing arr check with
  | nil => simp [infoLoop]
  | cons a l ih =>
    rw [infoLoop, ih, List.length_cons, Nat.add_comm l.length 1, Int32.ofNat_add, ← Int32.add_assoc]
    rfl

theorem length_setAt (arr : List Int32) (i x : Int32) : (setAt arr i x).length = arr.length := by
  rw [setAt]
  split
  · exact List.length_set
  · rfl

/-- The counter after one more event, unless it wraps. -/
theorem counter_succ {check : Int32} {n : ℕ} (hc : check.toInt = n) (hn : n + 1 < 2147483648) :
    (check + 1).toInt = ((n + 1 : ℕ) : Int) := by
  have hmax : Int32.maxValue.toInt = 2147483647 := rfl
  rw [toInt_succ check (by rintro rfl; omega), hc]
  omega

section
variable (mem : Addr → Event) {num check : Int32}

theorem infoLoop_full (want : Bool) {l : List Addr} (arr : List Int32) {n : ℕ}
    (hc : n < 2147483648 → check.toInt = n) (hl : n + l.length ≤ 2147483648) (hn : num.toInt ≤ n) :
    (infoLoop mem num want l arr check).1 = arr := by
  induction l generalizing check n with
  | nil => rfl
  | cons a l ih =>
    rw [List.length_cons] at hl
    have hcheck := hc (by omega)
    have hnot : ¬ (check < num ∧ want = true) := fun h => by
      have hlt := Int32.lt_iff_toInt_lt.mp h.1
      omega
    rw [infoLoop, if_neg hnot]
    exact ih (counter_succ hcheck) (by omega) (by omega)

/-- The loop overwrites the entries from position `check` on with the ids of the list, as many
as there is room for, as long as the counter has not wrapped. -/
theorem infoLoop_array {l : List Addr} {done rest : List Int32}
    (hc : done.length < 2147483648 → check.toInt = done.length)
    (hl : done.length + l.length ≤ 2147483648)
    (hnum : ((done.length + rest.length : ℕ) : Int) = num.toInt) :
    (infoLoop mem num true l (done ++ rest) check).1 =
      done ++ (l.map fun a => (mem a).id).take rest.length ++ rest.drop l.length := by
  induction l generalizing check done rest with
  | nil => simp [infoLoop]
  | cons a l ih =>
    cases rest with
    | nil =>
      rw [List.length_nil] at hnum
      rw [infoLoop_full mem true _ hc hl (by omega)]
      simp
    | cons x rest =>
      rw [List.length_cons] at hnum hl
      have hcheck := hc (by omega)
      have hlt : check < num := Int32.lt_iff_toInt_lt.mpr (by omega)
      have hpos : 0 ≤ check := Int32.le_iff_toInt_le.mpr (by rw [Int32.toInt_zero]; omega)
      have hset : setAt (done ++ x :: rest) check (mem a).id = done ++ [(mem a).id] ++ rest := by
        rw [setAt, if_pos hpos, hcheck, Int.toNat_natCast, List.set_append_right _ _ (Nat.le_refl _),
          Nat.sub_self, List.set_cons_zero]
        simp
      have hlen : (done ++ [(mem a).id]).length = done.length + 1 := by simp
      have hstep := @ih (check + 1) (done ++ [(mem a).id]) rest
        (by rw [hlen]; exact counter_succ hcheck) (by rw [hlen]; omega) (by rw [hlen]; omega)
      rw [infoLoop, if_pos ⟨hlt, rfl⟩, hset, hstep]
      simp

end

theorem length_infoArray (num : Int32) : (infoArray num).length = num.toInt.toNat :=
  List.length_replicate

/-- The ids of the live events, oldest first. -/
def State.ids (s : State) : List Int32 := s.eventlist.map fun a => (s.mem a).id

/-- What info is to put into a buffer of `num` ints: the ids of the live events, and -1 after
them. -/
def State.listing (s : State) (num : Int32) : List Int32 :=
  s.ids ++ List.replicate (num.toInt.toNat - s.eventlist.length) (-1)

/-- The part of the listing that `copy_to_user` gets: the length in bytes is cut to 32 bits. -/
def State.copied (s : State) (num : Int32) : List Int32 :=
  (s.listing num).take (num.toInt.toNat % 1073741824)

theorem length_listing {s : State} {num : Int32} (hroom : (s.eventlist.length : Int) ≤ num.toInt) :
    (s.listing num).length = num.toInt.toNat := by
  rw [State.listing, List.length_append, List.length_replicate, State.ids, List.length_map]
  omega

theorem take_intBytes (xs : List Int32) (n : ℕ) : (intBytes xs).take (4 * n) = intBytes (xs.take n) := by
  induction xs generalizing n with
  | nil => simp [intBytes]
  | cons x xs ih =>
    cases n with
    | zero => rfl
    | succ n =>
      have hfour : 4 * (n + 1) = (wordBytes x.toUInt32).length + 4 * n := by
        rw [length_wordBytes]
        omega
      have hcons : ∀ ys, intBytes (x :: ys) = wordBytes x.toUInt32 ++ intBytes ys := fun _ => rfl
      rw [List.take_succ_cons, hcons, hcons, hfour, List.take_length_add_append, ih]

theorem copyLen_eq {num : Int32} (h : 0 ≤ num.toInt) :
    (copyToUserLen (sizeofEventsarray num)).toNat = 4 * (num.toInt.toNat % 1073741824) := by
  rw [copyToUserLen, sizeofEventsarray]
  omega

/-! ### The outcomes of info -/

section
variable {s : State} {t : Task} {num : Int32} {p : ℕ}

theorem info_null (hfew : s.eventlist.length < 2147483648) :
    sysDoeventinfo s t num none = returned s t s.eventlist.length := by
  simp [sysDoeventinfo, infoProbeFails, infoFinish, infoLoop_check, Int32.toInt_ofNat_of_lt hfew]

theorem info_negative (hnum : num < 0) : sysDoeventinfo s t num (some p) = returned s t (-1) := by
  simp [sysDoeventinfo, hnum]

theorem info_unreadable (h : ¬ Covers (s.user t).readable p 4) :
    sysDoeventinfo s t num (some p) = returned s t (-1) := by
  have hprobe : infoProbeFails (s.user t) (some p) = true := by
    by_contra hn
    exact h (infoProbeFails_eq_false.mp (Bool.not_eq_true _ ▸ hn) p rfl)
  simp [sysDoeventinfo, hprobe]

/-- Without room for all events nothing is copied, whether or not the buffer can be read. -/
theorem info_short (hfew : s.eventlist.length < 2147483648)
    (hshort : num.toInt < s.eventlist.length) :
    sysDoeventinfo s t num (some p) = returned s t (-1) := by
  have hover : ¬ Int32.ofNat s.eventlist.length ≤ num := by
    rw [Int32.le_iff_toInt_le, Int32.toInt_ofNat_of_lt hfew]
    omega
  rw [sysDoeventinfo]
  split_ifs
  · rfl
  · rfl
  · simp [infoFinish, infoLoop_check, hover]

/-- With room for all events the listing is copied out, up to the length that `copy_to_user`
gets. -/
theorem info_fits (hfew : s.eventlist.length < 2147483648)
    (hroom : (s.eventlist.length : Int) ≤ num.toInt) (hread : Covers (s.user t).readable p 4) :
    sysDoeventinfo s t num (some p) =
      returned { s with
          user := Function.update s.user t (copyToUser (s.user t) p (intBytes (s.copied num))).1 } t
        (if (copyToUser (s.user t) p (intBytes (s.copied num))).2 ≠ 0 then -1
          else s.eventlist.length) := by
  have hnum : ¬ num < 0 := by
    rw [Int32.lt_iff_toInt_lt, Int32.toInt_zero]
    omega
  have hprobe : infoProbeFails (s.user t) (some p) = false := by
    rw [infoProbeFails_eq_false]
    rintro a ⟨⟩
    exact hread
  have hle : Int32.ofNat s.eventlist.length ≤ num := by
    rw [Int32.le_iff_toInt_le, Int32.toInt_ofNat_of_lt hfew]
    exact hroom
  have hloop : (infoLoop s.mem num true s.eventlist (infoArray num) 0).1 = s.listing num := by
    have h := @infoLoop_array s.mem num 0 s.eventlist [] (infoArray num) (fun _ => rfl)
      (by rw [List.length_nil]; omega) (by rw [length_infoArray, List.length_nil]; omega)
    rwa [List.nil_append, List.nil_append, length_infoArray,
      List.take_of_length_le (by rw [List.length_map]; omega), infoArray, List.drop_replicate] at h
  have hcopy : copyEventsarray (s.user t) num p (s.listing num) =
      copyToUser (s.user t) p (intBytes (s.copied num)) := by
    rw [copyEventsarray, copyLen_eq (by omega), take_intBytes, State.copied]
  simp only [sysDoeventinfo, hnum, false_and, if_false, hprobe, Bool.false_eq_true, Option.isSome_some,
    infoFinish, hloop, infoLoop_check, Int32.zero_add, hle, if_true, hcopy,
    Int32.toInt_ofNat_of_lt hfew]
  split <;> rfl

end

theorem callEnds_info {s s' : State} {t : Task} {o : Option Int} (ht : s.pc t = .user)
    (hrq : (s.sched t).onRq = true) (c : Cred) (num : Int32) (q : Option ℕ) :
    CallEnds s t c (.doeventinfo num q) s' o ↔ (s', o) = sysDoeventinfo s t num q :=
  (callEnds_iff ht).trans (soloEnds_info hrq c num q)

theorem callEnds_stat {s s' : State} {t : Task} {o : Option Int} (ht : s.pc t = .user)
    (hrq : (s.sched t).onRq = true) (c : Cred) (i : Int32) (p : StatPtrs) (junk : Option Addr) :
    CallEnds s t c (.doeventstat i p junk) s' o ↔ (s', o) = sysDoeventstat s t i p junk :=
  (callEnds_iff ht).trans (soloEnds_stat hrq c i p junk)

/-! ### Queries that fail -/

/-- Whenever the call fails, it returns -1 and has changed nothing in user memory. -/
def FailsClean (s : State) (t : Task) (c : Cred) (k : Call) (failed : Int → Prop) : Prop :=
  ∀ s' r, CallEnds s t c k s' (some r) → failed r → r = -1 ∧ s'.user = s.user

/-- If info comes to copy, the copy succeeds, or what it writes before it fails is there
already. -/
def InfoWhole (s : State) (t : Task) (num : Int32) : Option ℕ → Prop
  | none => True
  | some p => Covers (s.user t).readable p 4 → (s.eventlist.length : Int) ≤ num.toInt →
      Covers (s.user t).writable p (4 * (s.copied num).length) ∨
        Rewrites (s.user t) p (intBytes (s.copied num))

/-- The search comes out with a cursor that is not NULL. -/
def Finds (s : State) (i : Int32) (junk : Option Addr) : Prop :=
  (∃ a ∈ s.eventlist, (s.mem a).id = i) ∨ s.eventlist = [] ∧ junk ≠ none

/-- If stat comes to copy, all its locations can be written. -/
def StatWhole (s : State) (t : Task) (i : Int32) (p : StatPtrs) (junk : Option Addr) : Prop :=
  (∀ a ∈ p.targets, Covers (s.user t).readable a 4) → 0 ≤ i → Finds s i junk →
    ∀ a ∈ p.targets, Covers (s.user t).writable a 4

section
variable {s s' : State} {t : Task} {c : Cred} {k : Call} {failed : Int → Prop} {r : Int}

theorem failsClean_iff {f : State × Option Int} (hf : ∀ s₁ o, CallEnds s t c k s₁ o ↔ (s₁, o) = f)
    (heq : f = returned s' t r) :
    FailsClean s t c k failed ↔ (failed r → r = -1 ∧ s'.user = s.user) := by
  constructor
  · intro h
    exact h (s'.goto t (.ret r)) r ((hf _ _).mpr heq.symm)
  · intro h s₁ r₁ hends hfail
    have hres := ((hf _ _).mp hends).trans heq
    cases hres
    exact h hfail

theorem finds_iff {i : Int32} {junk : Option Addr} :
    searchLoop s.mem i junk s.eventlist ≠ none ↔ Finds s i junk := by
  rw [Finds]
  cases hl : s.eventlist with
  | nil => simp [searchLoop]
  | cons a l =>
    have hnone : searchLoop s.mem i junk (a :: l) = none ↔ ∀ b ∈ a :: l, (s.mem b).id ≠ i := by
      rw [searchLoop_junk _ _ _ (List.cons_ne_nil a l), searchLoop_null, List.find?_eq_none]
      simp
    rw [ne_eq, hnone, or_iff_left fun h => List.cons_ne_nil a l h.1]
    simp only [not_forall, not_not, exists_prop]

/-- Info fails clean exactly if its copy, should it make one, is made whole or changes nothing. -/
theorem infoFails_iff (hfew : s.eventlist.length < 2147483648) {num : Int32} {q : Option ℕ}
    (hf : ∀ s₁ o, CallEnds s t c k s₁ o ↔ (s₁, o) = sysDoeventinfo s t num q) :
    FailsClean s t c k (· < 0) ↔ InfoWhole s t num q := by
  have hrefused : ∀ p, q = some p → sysDoeventinfo s t num (some p) = returned s t (-1) →
      (InfoWhole s t num (some p)) → (FailsClean s t c k (· < 0) ↔ InfoWhole s t num q) := by
    rintro p rfl heq hwhole
    exact iff_of_true ((failsClean_iff hf heq).mpr fun _ => ⟨rfl, rfl⟩) hwhole
  cases q with
  | none =>
    refine iff_of_true ((failsClean_iff hf (info_null hfew)).mpr fun hneg => ?_) trivial
    omega
  | some p =>
    by_cases hread : Covers (s.user t).readable p 4
    · by_cases hroom : (s.eventlist.length : Int) ≤ num.toInt
      · rw [failsClean_iff hf (info_fits hfew hroom hread)]
        have hleft := @copyToUser_left (s.user t) p (intBytes (s.copied num))
        rw [length_intBytes] at hleft
        have hsame : Function.update s.user t (copyToUser (s.user t) p (intBytes (s.copied num))).1 =
            s.user ↔ Rewrites (s.user t) p (intBytes (s.copied num)) := by
          rw [Function.update_eq_self_iff, copyToUser_same]
        dsimp only
        rw [hsame]
        by_cases hcovers : Covers (s.user t).writable p (4 * (s.copied num).length)
        · rw [hleft.mpr hcovers]
          exact iff_of_true (fun hneg => by simp at hneg; omega) fun _ _ => .inl hcovers
        · rw [if_pos (mt hleft.mp hcovers)]
          constructor
          · intro h _ _
            exact .inr (h (by decide)).2
          · intro h _
            exact ⟨rfl, (h hread hroom).resolve_left hcovers⟩
      · exact hrefused p rfl (info_short hfew (by omega)) fun _ h => absurd h hroom
    · exact hrefused p rfl (info_unreadable hread) fun h => absurd h hread

theorem statFails_iff {i : Int32} {p : StatPtrs} {junk : Option Addr}
    (hf : ∀ s₁ o, CallEnds s t c k s₁ o ↔ (s₁, o) = sysDoeventstat s t i p junk) :
    FailsClean s t c k (· ≠ 0) ↔ StatWhole s t i p junk := by
  have hrefused : sysDoeventstat s t i p junk = returned s t (-1) → StatWhole s t i p junk →
      (FailsClean s t c k (· ≠ 0) ↔ StatWhole s t i p junk) := fun heq hwhole =>
    iff_of_true ((failsClean_iff hf heq).mpr fun _ => ⟨rfl, rfl⟩) hwhole
  cases hp : statProbe (s.user t) p with
  | none =>
    obtain ⟨a, ha, hn⟩ := statProbe_eq_none.mp hp
    exact hrefused (by simp [sysDoeventstat, hp]) fun hread => absurd (hread a ha) hn
  | some v =>
    by_cases hi : 0 ≤ i
    · have hv : isValidEventId i = false := by
        rw [← Bool.not_eq_true, isValidEventId_iff]
        exact Int32.not_lt.mpr hi
      cases hr : searchLoop s.mem i junk s.eventlist with
      | none =>
        refine hrefused ?_ fun _ _ hfinds => absurd hr (finds_iff.mpr hfinds)
        simp [sysDoeventstat, hp, hv, statLoop_fst, hr]
      | some e =>
        have hfinds : Finds s i junk := finds_iff.mp (by simp [hr])
        have hread := readable_of_statProbe hp
        have heq : sysDoeventstat s t i p junk = returned { s with
            user := Function.update s.user t
              (statFinish (s.user t) p (statLoop s.mem i junk v s.eventlist).2).1 } t
            (statFinish (s.user t) p (statLoop s.mem i junk v s.eventlist).2).2 := by
          simp [sysDoeventstat, hp, hv, statLoop_fst, hr]
        rw [failsClean_iff hf heq]
        constructor
        · intro h _ _ _
          by_contra hn
          exact statFinish_ne _ _ _ (h (mt statFinish_eq_zero.mp hn)).1
        · intro h hne
          exact absurd (statFinish_eq_zero.mpr (h hread hi hfinds)) hne
    · refine hrefused ?_ fun _ h => absurd h hi
      have hv : isValidEventId i = true := isValidEventId_iff.mpr (Int32.not_le.mp hi)
      simp [sysDoeventstat, hp, hv]

end

/-- The counter of info after 2^31 events, and before it comes round to -1. -/
theorem toInt_ofNat_wrapped {n : ℕ} (h : 2147483648 ≤ n) (hn : n < 4294967295) :
    (Int32.ofNat n).toInt < -1 := by
  have hsize : ((Int32.size : ℕ) : Int) = 4294967296 := rfl
  rw [Int32.toInt_ofNat', Int.bmod_def, hsize]
  split <;> omega

/-- Failed info and stat calls return -1 and leave user memory untouched exactly if no copy
stops halfway. Info needs fewer than 2^31 events besides: beyond that its counter is negative
and is returned as it is. -/
theorem failed_queries_harmless (mem : Addr → Event) (user : Task → UserMem) (xs : List Action)
    (s : State) (hrun : Run step UnlinksAlone (doeventInit mem user) xs s) (t : Task)
    (ht : s.pc t = .user) (c : Cred) :
    (s.eventlist.length < 2147483648 → ∀ num q,
      (FailsClean s t c (.doeventinfo num q) (· < 0) ↔ InfoWhole s t num q)) ∧
    (2147483648 ≤ s.eventlist.length → s.eventlist.length < 4294967295 → ∀ num,
      ¬ FailsClean s t c (.doeventinfo num none) (· < 0)) ∧
    ∀ i p junk, FailsClean s t c (.doeventstat i p junk) (· ≠ 0) ↔ StatWhole s t i p junk := by
  have hrq := onRq_of_user (localInv_reachable hrun) ht
  refine ⟨fun hfew num q => infoFails_iff hfew fun _ _ => callEnds_info ht hrq c num q,
    fun hmany hless num hclean => ?_, fun i p junk => statFails_iff fun _ _ =>
      callEnds_stat ht hrq c i p junk⟩
  have hneg := toInt_ofNat_wrapped hmany hless
  have heq : sysDoeventinfo s t num none = returned s t (Int32.ofNat s.eventlist.length).toInt := by
    simp [sysDoeventinfo, infoProbeFails, infoFinish, infoLoop_check]
  have hvalue := (failsClean_iff (fun _ _ => callEnds_info ht hrq c num none) heq).mp hclean (by omega)
  omega

/-- One event is live, and a buffer of no ints is too small. -/
theorem failed_queries_harmless_short :
    ∃ s, Run step UnlinksAlone boot (opens 0 rootCred 1) s ∧ s.eventlist = [1] ∧
      FailsClean s 0 rootCred (.doeventinfo 0 (some 8)) (· < 0) := by
  obtain ⟨s, hr, _, ht⟩ := run_of_idle_test UnlinksAlone (opens 0 rootCred 1) 1 (unlinksAloneTest 1)
    (fun s => decide (s.eventlist = [1] ∧ s.pc 0 = .user)) (by decide) (boot_idleFrom 1)
    fun s x hi h => unlinksAlone_of_test hi h
  obtain ⟨hlist, hpc⟩ := of_decide_eq_true ht
  refine ⟨s, hr, hlist, ((failed_queries_harmless bootMem bootUser _ s hr 0 hpc rootCred).1
    (by rw [hlist]; decide) 0 (some 8)).mpr fun _ hroom => ?_⟩
  rw [hlist] at hroom
  exact absurd hroom (by decide)

/-- All pages can be read, and only page 0 can be written. -/
def readOnlyUser : Task → UserMem := fun _ => ⟨fun _ => 7, fun _ => true, fun page => page == 0⟩

/-- A buffer that reaches into the read-only page is written up to there although info
returns -1, and stat returns -14 for a read-only location. -/
theorem failed_queries_write_memory :
    (¬ ∀ mem user xs s, Run step UnlinksAlone (doeventInit mem user) xs s → s.eventlist ≠ [] →
      ∀ t c, s.pc t = .user → ∀ num q, FailsClean s t c (.doeventinfo num q) (· < 0)) ∧
    (¬ ∀ mem user xs s, Run step UnlinksAlone (doeventInit mem user) xs s → s.eventlist ≠ [] →
      ∀ t c, s.pc t = .user → ∀ i p junk, FailsClean s t c (.doeventstat i p junk) (· ≠ 0)) := by
  obtain ⟨s, hr, _, ht⟩ := run_of_idle_test UnlinksAlone (opens 0 rootCred 1) 1 (unlinksAloneTest 1)
    (fun s => decide (s.eventlist = [1] ∧ s.pc 0 = .user ∧ (s.sched 0).onRq = true ∧
        (s.user 0).byte 4092 = 7 ∧
        (sysDoeventinfo s 0 2 (some 4092)).2 = some (-1) ∧
        ((sysDoeventinfo s 0 2 (some 4092)).1.user 0).byte 4092 = 0 ∧
        (sysDoeventstat s 0 0 ⟨some 4096, none, none, none⟩ none).2 = some (-14))) (by decide)
    (show (doeventInit bootMem readOnlyUser).idleFrom 1 from fun _ _ => rfl)
    fun s x hi h => unlinksAlone_of_test hi h
  obtain ⟨hlist, hpc, hrq, hbyte, hinfo, hwritten, hstat⟩ := of_decide_eq_true ht
  have hlive : s.eventlist ≠ [] := by simp [hlist]
  constructor
  · intro hclaim
    have hsame := (hclaim bootMem readOnlyUser _ s hr hlive 0 rootCred hpc 2 (some 4092)
      (sysDoeventinfo s 0 2 (some 4092)).1 (-1)
      ((callEnds_info hpc hrq rootCred 2 (some 4092)).mpr (by rw [← hinfo])) (by decide)).2
    rw [hsame, hbyte] at hwritten
    exact absurd hwritten (by decide)
  · intro hclaim
    have hvalue := (hclaim bootMem readOnlyUser _ s hr hlive 0 rootCred hpc 0
      ⟨some 4096, none, none, none⟩ none (sysDoeventstat s 0 0 ⟨some 4096, none, none, none⟩ none).1
      (-14) ((callEnds_stat hpc hrq rootCred 0 _ none).mpr (by rw [← hstat])) (by decide)).1
    exact absurd hvalue (by decide)

/-! ### Info lists every live event -/

/-- `m'` is `m` with the ints `xs` from `p` on and nothing else changed. -/
structure Filled (m : UserMem) (p : ℕ) (xs : List Int32) (m' : UserMem) : Prop where
  words : ∀ j x, xs[j]? = some x → wordAt m' (p + 4 * j) = x.toUInt32
  outside : ∀ k, k < p ∨ p + 4 * xs.length ≤ k → m'.byte k = m.byte k
  readable : m'.readable = m.readable
  writable : m'.writable = m.writable

/-- The ints that the copy of `num` ints leaves out, 2^30 of them once `4 * num` does not fit
32 bits, are in the buffer already. -/
def LeftOutThere (m : UserMem) (p : ℕ) (num : Int32) (xs : List Int32) : Prop :=
  1073741824 ≤ num.toInt → ∀ (j : ℕ) x, num.toInt - 1073741824 ≤ j → xs[j]? = some x →
    wordAt m (p + 4 * j) = x.toUInt32

/-- Writing the first `n` of the ints fills the buffer if the others are there already. -/
theorem filled_writes_take {m : UserMem} {p n : ℕ} {xs : List Int32} :
    Filled m p xs (m.writes p (intBytes (xs.take n))) ↔
      ∀ j x, n ≤ j → xs[j]? = some x → wordAt m (p + 4 * j) = x.toUInt32 := by
  have hlen : (intBytes (xs.take n)).length = 4 * min n xs.length := by
    rw [length_intBytes, List.length_take]
  have hlater : ∀ j, n ≤ j → wordAt (m.writes p (intBytes (xs.take n))) (p + 4 * j) = wordAt m (p + 4 * j) :=
    fun j hj => wordAt_writes_of_disjoint m (by omega)
  constructor
  · intro h j x hj hx
    rw [← hlater j hj]
    exact h.words j x hx
  · intro h
    refine ⟨fun j x hx => ?_, fun k hk => writes_byte_of_outside m (by omega), rfl, rfl⟩
    by_cases hj : n ≤ j
    · rw [hlater j hj]
      exact h j x hj hx
    · exact wordAt_writes_intBytes m p (by rwa [List.getElem?_take_of_lt (by omega)])

section
variable {s : State} {t : Task} {c : Cred} {k : Call} {num : Int32} {p : ℕ}

/-- With room for all events, info fills the buffer exactly if the ints it does not copy are
there already. -/
theorem info_delivers_iff (hfew : s.eventlist.length < 2147483648)
    (hf : ∀ s₁ o, CallEnds s t c k s₁ o ↔ (s₁, o) = sysDoeventinfo s t num (some p))
    (hroom : (s.eventlist.length : Int) ≤ num.toInt)
    (hread : Covers (s.user t).readable p (4 * max num.toInt.toNat 1))
    (hwrite : Covers (s.user t).writable p (4 * max num.toInt.toNat 1)) :
    (∃ m', Filled (s.user t) p (s.listing num) m' ∧
      Outcome s t c k { s with user := Function.update s.user t m' } s.eventlist.length) ↔
    LeftOutThere (s.user t) p num (s.listing num) := by
  have hlen := length_listing hroom
  have hcovers : Covers (s.user t).writable p (intBytes (s.copied num)).length := by
    rw [length_intBytes, State.copied, List.length_take]
    exact fun k hk hlt => hwrite k hk (by omega)
  have hinfo := info_fits hfew hroom fun k hk hlt => hread k hk (by omega)
  rw [copyToUser_of_covers hcovers] at hinfo
  have hwritten : (∃ m', Filled (s.user t) p (s.listing num) m' ∧
      Outcome s t c k { s with user := Function.update s.user t m' } s.eventlist.length) ↔
      Filled (s.user t) p (s.listing num) ((s.user t).writes p (intBytes (s.copied num))) := by
    constructor
    · rintro ⟨m', hfilled, hout⟩
      have hstates := congrArg Prod.fst (hinfo.symm.trans ((outcome_iff hf).mp hout))
      have hm := congrFun (congrArg State.user hstates) t
      simp only [returned, goto_user, Function.update_self] at hm
      rwa [hm]
    · intro hfilled
      exact ⟨_, hfilled, (outcome_iff hf).mpr hinfo⟩
  rw [hwritten, State.copied, filled_writes_take, LeftOutThere]
  constructor
  · intro h hbig j x hj hx
    exact h j x (by omega) hx
  · intro h j x hj hx
    obtain ⟨hlt, _⟩ := List.getElem?_eq_some_iff.mp hx
    have hmax := Int32.toInt_lt num
    exact h (by omega) j x (by omega) hx

end

/-- The ids are distinct numbers from 0 on, so that the counter of info stays in the range of
an int as long as the last id does not reach the end of the range. -/
theorem IdsInv.length_lt {s : State} (hi : IdsInv s) (hfull : ¬ IdsExhausted s) :
    (s.eventlist.length : Int) < 2 ^ 31 := by
  have hlt : ∀ a ∈ s.eventlist, s.idOf a < 2 ^ 31 - 1 := by
    intro a ha
    have h1 := hi.lt_issued hfull ha
    have h2 := Int32.toInt_lt ((s.mem (lastEvent s)).id + 1)
    omega
  have hnodup : (s.eventlist.map fun a => (s.idOf a).toNat).Nodup := by
    rw [List.Nodup, List.pairwise_map]
    refine hi.sorted.imp_of_mem ?_
    intro a b ha hb hab heq
    have ha0 := hi.nonneg a ha
    omega
  have hsub : (s.eventlist.map fun a => (s.idOf a).toNat) ⊆ List.range (2 ^ 31 - 1) := by
    intro n hn
    obtain ⟨a, ha, rfl⟩ := List.mem_map.mp hn
    have := hlt a ha
    have := hi.nonneg a ha
    rw [List.mem_range]
    omega
  have hle := (List.Nodup.subperm hnodup hsub).length_le
  rw [List.length_map, List.length_range] at hle
  omega

/-! ### Counting first and listing afterwards -/

def keepsList (k : Kind) : Bool := k != .doeventopen && k != .doeventclose

theorem callsIn_of_quiet {s : State} (h : s.quiet) : CallsIn keepsList s := by
  intro t k hk
  have hp := h t
  revert hk hp
  cases s.pc t <;> simp [Pc.parked, Pc.kind, keepsList]
  rintro rfl
  decide

/-- Without open and close under way no step changes the list or an id. -/
theorem CallsIn.ids_step {s s' : State} {x : Action} (hc : CallsIn keepsList s)
    (h : DoEvent.step s x = some s') : s'.eventlist = s.eventlist ∧ s'.ids = s.ids := by
  obtain ⟨e, p, hm, rfl⟩ := step_eq_some.mp h
  have ho := hm.origin
  have hno : ∀ k, (s.pc x.task).kind = some k → keepsList k = true := hc x.task
  cases e with
  | openSection c a =>
    rw [ho.1] at hno
    exact absurd (hno .doeventopen rfl) (by decide)
  | closeSection a process =>
    rw [ho.1] at hno
    exact absurd (hno .doeventclose rfl) (by decide)
  | _ => exact ⟨by rw [goto_eventlist, apply_eventlist], by simp [State.ids, apply_eventlist, apply_id]⟩

theorem ids_run {s s' : State} {xs : List Action} {ok : State → Action → Prop} (h : Run step ok s xs s')
    (hok : ∀ m x, ok m x → x.callIn keepsList = true) (hc : CallsIn keepsList s) :
    s'.eventlist = s.eventlist ∧ s'.ids = s.ids := by
  have hend := h.invariant (fun m => CallsIn keepsList m ∧ m.eventlist = s.eventlist ∧ m.ids = s.ids)
    ⟨hc, rfl, rfl⟩ fun m x m' hinv hx hstep => by
      obtain ⟨hl, hi⟩ := hinv.1.ids_step hstep
      exact ⟨hinv.1.step (hok m x hx) hstep, hl.trans hinv.2.1, hi.trans hinv.2.2⟩
  exact hend.2

/-- Info lists every live event exactly once, in the order of the ids, or only counts them. A
buffer with room for all events is filled exactly if the length of the copy, cut to 32 bits,
leaves out nothing that is not there already. -/
theorem info_lists_events (mem : Addr → Event) (user : Task → UserMem) (xs : List Action) (s : State)
    (hrun : Run step SeqStep (doeventInit mem user) xs s) (hfull : ¬ IdsExhausted s) (t : Task)
    (ht : s.pc t = .user) (c : Cred) :
    (s.ids.Pairwise fun i j => i.toInt < j.toInt) ∧
    (s.eventlist.length : Int) < 2 ^ 31 ∧
    (∀ num, Outcome s t c (.doeventinfo num none) s s.eventlist.length) ∧
    (∀ num p, num < 0 → Outcome s t c (.doeventinfo num (some p)) s (-1)) ∧
    (∀ num p, 0 ≤ num → Covers (s.user t).readable p (4 * max num.toInt.toNat 1) →
      Covers (s.user t).writable p (4 * max num.toInt.toNat 1) →
      ((s.eventlist.length : Int) ≤ num.toInt →
        ((∃ m', Filled (s.user t) p (s.listing num) m' ∧
          Outcome s t c (.doeventinfo num (some p)) { s with user := Function.update s.user t m' }
            s.eventlist.length) ↔ LeftOutThere (s.user t) p num (s.listing num))) ∧
      (num.toInt < s.eventlist.length → Outcome s t c (.doeventinfo num (some p)) s (-1))) ∧
    (s.quiet → ∀ num s₁ r, CallEnds s t c (.doeventinfo num none) s₁ (some r) →
      ∀ ys s₂, Run step (fun m x => SeqStep m x ∧ x.callIn keepsList = true) s₁ ys s₂ →
      ∀ u d, s₂.pc u = .user → ∀ count p, count.toInt = r →
        Covers (s₂.user u).readable p (4 * max count.toInt.toNat 1) →
        Covers (s₂.user u).writable p (4 * max count.toInt.toNat 1) →
        ((∃ m', Filled (s₂.user u) p s.ids m' ∧ Outcome s₂ u d (.doeventinfo count (some p))
          { s₂ with user := Function.update s₂.user u m' } r) ↔
            LeftOutThere (s₂.user u) p count s.ids)) := by
  obtain ⟨hs, hi⟩ := seqIds_run hrun (doeventInit_seqInv mem user) (doeventInit_idsInv mem user)
  have hrq := onRq_of_user hs.own ht
  have hlt := hi.length_lt hfull
  have hfew : s.eventlist.length < 2147483648 := by omega
  have hends : ∀ num q s₁ o, CallEnds s t c (.doeventinfo num q) s₁ o ↔
      (s₁, o) = sysDoeventinfo s t num q := fun num q _ _ => callEnds_info ht hrq c num q
  refine ⟨?_, hlt, fun num => (outcome_iff (hends num none)).mpr (info_null hfew),
    fun num p hneg => (outcome_iff (hends num (some p))).mpr (info_negative hneg),
    fun num p hnum hread hwrite => ⟨fun hroom =>
      info_delivers_iff hfew (hends num (some p)) hroom hread hwrite,
      fun hshort => (outcome_iff (hends num (some p))).mpr (info_short hfew hshort)⟩, ?_⟩
  · rw [State.ids, List.pairwise_map]
    exact hi.sorted
  · intro hquiet num s₁ r hcount ys s₂ hys u d hu count p hr hread hwrite
    obtain ⟨hs₁, hr₁⟩ := ((outcome_iff (hends num none)).mpr (info_null hfew) _ _).mp hcount
    injection hr₁ with hr₁
    have hcalls : CallsIn keepsList s₁ := by
      refine callsIn_of_quiet fun v => ?_
      rw [hs₁, goto_pc]
      by_cases hv : v = t
      · rw [hv, Function.update_self]
        rfl
      · rw [Function.update_of_ne hv]
        exact hquiet v
    obtain ⟨hlist, hids⟩ := ids_run hys (fun m x hx => hx.2) hcalls
    have hsame : s₂.eventlist = s.eventlist ∧ s₂.ids = s.ids := by
      rw [hlist, hids, hs₁]
      exact ⟨rfl, rfl⟩
    have hown : LocalInv s₂ := by
      obtain ⟨m, hm, zs, hzs, _⟩ := hcount
      exact localInv_run hys (localInv_run hzs (hs.own.step hm))
    -- the buffer has exactly as many ints as there are events
    have hexact : s₂.listing count = s.ids := by
      rw [State.listing, hsame.1, hsame.2, hr, hr₁, Int.toNat_natCast, Nat.sub_self,
        List.replicate_zero, List.append_nil]
    have hroom : (s₂.eventlist.length : Int) ≤ count.toInt := by
      rw [hsame.1, hr, hr₁]
    have hret : (s₂.eventlist.length : Int) = r := by rw [hsame.1, hr₁]
    have hdelivers := info_delivers_iff (by rw [hsame.1]; exact hfew)
      (fun _ _ => callEnds_info hu (onRq_of_user hown hu) d count (some p)) hroom hread hwrite
    rwa [hexact, hret] at hdelivers

theorem leftOutThere_of_lt {m : UserMem} {p : ℕ} {num : Int32} {xs : List Int32}
    (h : num.toInt < 1073741824) : LeftOutThere m p num xs := fun hbig => absurd hbig (by omega)

/-- Two events are live and the buffer has room for three ids. -/
theorem info_lists_events_two :
    ∃ s, Run step SeqStep boot (opens 0 rootCred 1 ++ opens 0 rootCred 2) s ∧
      ∃ m', Filled (s.user 0) 8 [0, 1, -1] m' ∧ Outcome s 0 rootCred (.doeventinfo 3 (some 8))
        { s with user := Function.update s.user 0 m' } 2 := by
  obtain ⟨s, hr, _, ht⟩ := run_of_idle_test SeqStep (opens 0 rootCred 1 ++ opens 0 rootCred 2) 1
    (seqStepTest 1)
    (fun s => decide (s.eventlist.length = 2 ∧ s.listing 3 = [0, 1, -1] ∧ s.pc 0 = .user ∧
      ¬ IdsExhausted s ∧ (s.user 0).readable 0 = true ∧ (s.user 0).writable 0 = true))
    (by decide) (boot_idleFrom 1) fun _ _ => seqStep_of_test
  obtain ⟨hlen, hlisting, hpc, hfull, hread, hwrite⟩ := of_decide_eq_true ht
  -- the twelve bytes from 8 on lie in page 0
  have hcovers : ∀ ok : ℕ → Bool, ok 0 = true → Covers ok 8 12 := by
    intro ok hok k hk hlt
    rwa [show k / pageSize = 0 from Nat.div_eq_of_lt (by rw [pageSize]; omega)]
  obtain ⟨_, _, _, _, hinfo, _⟩ := info_lists_events bootMem bootUser _ s hr hfull 0 hpc rootCred
  have hfits := ((hinfo 3 8 (by decide) (hcovers _ hread) (hcovers _ hwrite)).1
    (by rw [hlen]; decide)).mpr (leftOutThere_of_lt (by decide))
  rw [hlisting, hlen] at hfits
  exact ⟨s, hr, hfits⟩

/-- With one event and room for 2^30 ids, in memory that holds only zeros, `copy_to_user` gets
the length 0: info returns 1 and leaves the buffer as it was, the second int included. -/
theorem info_copies_nothing :
    ¬ ∀ mem user xs s, Run step SeqStep (doeventInit mem user) xs s → ¬ IdsExhausted s →
      ∀ t c, s.pc t = .user → ∀ num p, 0 ≤ num →
      Covers (s.user t).readable p (4 * max num.toInt.toNat 1) →
      Covers (s.user t).writable p (4 * max num.toInt.toNat 1) →
      (s.eventlist.length : Int) ≤ num.toInt → ∃ m', Filled (s.user t) p (s.listing num) m' ∧
        Outcome s t c (.doeventinfo num (some p)) { s with user := Function.update s.user t m' }
          s.eventlist.length := by
  intro hclaim
  obtain ⟨s, hr, _, ht⟩ := run_of_idle_test SeqStep (opens 0 rootCred 1) 1
    (seqStepTest 1)
    (fun s => decide (s.eventlist = [1] ∧ s.pc 0 = .user ∧ (s.sched 0).onRq = true ∧ ¬ IdsExhausted s))
    (by decide) (boot_idleFrom 1) fun _ _ => seqStep_of_test
  obtain ⟨hlist, hpc, hrq, hfull⟩ := of_decide_eq_true ht
  have huser : s.user = bootUser := by
    have hopened : ∃ s', steps step (fun _ _ => true) boot (opens 0 rootCred 1) = some s' ∧
        s'.user = bootUser := ⟨_, rfl, rfl⟩
    obtain ⟨s', hs', huser⟩ := hopened
    have hrun : Run step AnyStep boot (opens 0 rootCred 1) s' :=
      Run.of_steps _ hs' fun _ _ _ => trivial
    rw [hr.functional hrun, huser]
  have hlen : s.eventlist.length = 1 := by rw [hlist]; rfl
  have hmem : ∀ n, Covers (s.user 0).readable 4096 n ∧ Covers (s.user 0).writable 4096 n := by
    rw [huser]
    exact fun n => ⟨fun _ _ _ => rfl, fun _ _ _ => rfl⟩
  have hroom : (s.eventlist.length : Int) ≤ (1073741824 : Int32).toInt := by
    rw [hlen]
    decide
  have hthere := (info_delivers_iff (by rw [hlen]; decide)
    (fun _ _ => callEnds_info hpc hrq rootCred 1073741824 (some 4096)) hroom (hmem _).1 (hmem _).2).mp
    (hclaim bootMem bootUser _ s hr hfull 0 rootCred hpc 1073741824 4096 (by decide) (hmem _).1 (hmem _).2
      hroom)
  have hsecond : (s.listing 1073741824)[1]? = some (-1 : Int32) := by
    rw [State.listing, List.getElem?_append_right (by rw [State.ids, List.length_map, hlen]), State.ids,
      List.length_map, hlen, List.getElem?_replicate]
    exact if_pos (by decide)
  have hword := hthere (by decide) 1 (-1) (by decide) hsecond
  rw [huser] at hword
  exact absurd hword (by decide)

end DoEvent
