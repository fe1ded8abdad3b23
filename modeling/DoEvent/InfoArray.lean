import DoEvent.Ids
import DoEvent.Queries

/-!
# The local array of sys_doeventinfo

`int eventsarray[num]` lies on the kernel stack, with a length that comes from the caller.
Here the two loops that fill it run as they are written: the counters are of type `int`
and wrap (the kernel is built with `-fno-strict-overflow`), and a store goes to whatever
word of the stack the index selects. The machine's list of `num` numbers is what the words
from 0 to `num - 1` hold, as long as the loops stay inside.
-/

namespace DoEvent

/-- `THREAD_SIZE` of x86-64 (`arch/x86/include/asm/page_64_types.h`): two pages. -/
def threadSize : Int := 8192

/-- The words of the stack, by their index from the start of `eventsarray`, and the indices
that have been stored to. -/
structure Frame where
  word : Int → Int32
  used : List Int

def Frame.fresh (word : Int → Int32) : Frame := ⟨word, []⟩

/-- `eventsarray[i] = v`. -/
def Frame.store (f : Frame) (i v : Int32) : Frame :=
  ⟨Function.update f.word i.toInt v, f.used ++ [i.toInt]⟩

theorem toInt_succ_of_lt {p num : Int32} (h : p < num) : (p + 1).toInt = p.toInt + 1 := by
  refine toInt_succ p ?_
  rintro rfl
  have hlt := Int32.lt_iff_toInt_lt.mp h
  have hmax := Int32.toInt_lt num
  have hval : Int32.maxValue.toInt = 2147483647 := rfl
  omega

/-- `for(p=0;p<num;p++) eventsarray[p] = -1`, from `p` on. -/
def fillLoop (num p : Int32) (f : Frame) : Frame :=
  if p < num then fillLoop num (p + 1) (f.store p (-1)) else f
termination_by (num.toInt - p.toInt).toNat
decreasing_by
  next h =>
    have hlt := Int32.lt_iff_toInt_lt.mp h
    have hsucc := toInt_succ_of_lt h
    omega

/-- The loop under the read lock, with the counter as the `int` it is. -/
def collectLoop (mem : Addr → Event) (num : Int32) (want : Bool) :
    List Addr → Int32 → Frame → Int32 × Frame
  | [], check, f => (check, f)
  | a :: rest, check, f =>
    collectLoop mem num want rest (check + 1)
      (if check < num ∧ want = true then f.store check (mem a).id else f)

/-- The elements of `eventsarray`. -/
def Frame.array (f : Frame) (num : Int32) : List Int32 :=
  (List.range num.toInt.toNat).map fun i : ℕ => f.word (i : Int)

/-! ### The fill loop -/

theorem fillLoop_used (num p : Int32) (f : Frame) (i : Int) :
    i ∈ (fillLoop num p f).used ↔ i ∈ f.used ∨ (p.toInt ≤ i ∧ i < num.toInt) := by
  fun_induction fillLoop num p f with
  | case1 p f h ih =>
    have hlt := Int32.lt_iff_toInt_lt.mp h
    have hstep : (i = p.toInt ∨ p.toInt + 1 ≤ i ∧ i < num.toInt) ↔ (p.toInt ≤ i ∧ i < num.toInt) := by
      omega
    rw [ih, toInt_succ_of_lt h, Frame.store, List.mem_append, List.mem_singleton, or_assoc, hstep]
  | case2 p f h =>
    have hle := mt Int32.lt_iff_toInt_lt.mpr h
    have hempty : ¬ (p.toInt ≤ i ∧ i < num.toInt) := by omega
    rw [or_iff_left hempty]

theorem fillLoop_word (num p : Int32) (f : Frame) (i : Int) :
    (fillLoop num p f).word i = if p.toInt ≤ i ∧ i < num.toInt then -1 else f.word i := by
  fun_induction fillLoop num p f with
  | case1 p f h ih =>
    have hlt := Int32.lt_iff_toInt_lt.mp h
    rw [ih, toInt_succ_of_lt h]
    simp only [Frame.store, Function.update_apply]
    split_ifs <;> first | rfl | omega
  | case2 p f h =>
    have hle := mt Int32.lt_iff_toInt_lt.mpr h
    rw [if_neg (by omega)]

theorem fillLoop_array (num : Int32) (f : Frame) : (fillLoop num 0 f).array num = infoArray num := by
  refine List.ext_getElem (by rw [length_infoArray, Frame.array, List.length_map, List.length_range]) ?_
  intro i hi _
  have hlt : i < num.toInt.toNat := by simpa [Frame.array] using hi
  have hzero : (0 : Int32).toInt = 0 := rfl
  have hin : (0 : Int32).toInt ≤ (i : Int) ∧ (i : Int) < num.toInt := by omega
  simp only [Frame.array, infoArray, List.getElem_map, List.getElem_range, fillLoop_word,
    List.getElem_replicate, if_pos hin]

/-! ### The collecting loop -/

theorem collectLoop_check (mem : Addr → Event) (num : Int32) (want : Bool) (l : List Addr)
    (check : Int32) (f : Frame) :
    (collectLoop mem num want l check f).1 = check + Int32.ofNat l.length := by
  induction l generalizing check f with
  | nil => simp [collectLoop]
  | cons a l ih =>
    rw [collectLoop, ih, List.length_cons, Nat.add_comm l.length 1, Int32.ofNat_add, ← Int32.add_assoc]
    rfl

theorem collectLoop_append (mem : Addr → Event) (num : Int32) (want : Bool) (l l' : List Addr)
    (check : Int32) (f : Frame) :
    collectLoop mem num want (l ++ l') check f =
      collectLoop mem num want l' (collectLoop mem num want l check f).1
        (collectLoop mem num want l check f).2 := by
  induction l generalizing check f with
  | nil => rfl
  | cons a l ih => rw [List.cons_append, collectLoop, collectLoop, ih]

/-- Nothing is ever taken back from the indices used. -/
theorem collectLoop_keeps (mem : Addr → Event) (num : Int32) (want : Bool) (l : List Addr)
    (check : Int32) (f : Frame) {i : Int} (hi : i ∈ f.used) :
    i ∈ (collectLoop mem num want l check f).2.used := by
  induction l generalizing check f with
  | nil => exact hi
  | cons a l ih =>
    rw [collectLoop]
    refine ih _ _ ?_
    split
    · exact List.mem_append_left _ hi
    · exact hi

/-- A store is one to the array if its index lies in it, and otherwise does not touch it. -/
theorem array_store (f : Frame) (num i v : Int32) :
    (f.store i v).array num = setAt (f.array num) i v := by
  have hpos : 0 ≤ i ↔ 0 ≤ i.toInt := by rw [Int32.le_iff_toInt_le, Int32.toInt_zero]
  refine List.ext_getElem (by rw [length_setAt]; simp [Frame.array]) ?_
  intro j hj _
  simp only [setAt, hpos]
  split_ifs
  · simp only [Frame.array, Frame.store, List.getElem_map, List.getElem_range, List.getElem_set,
      Function.update_apply]
    split_ifs <;> first | rfl | omega
  · simp only [Frame.array, Frame.store, List.getElem_map, List.getElem_range, Function.update_apply]
    rw [if_neg (by omega)]

/-- The words of the array and the counter are those of the machine's loop, also when the
counter wraps. -/
theorem collectLoop_array (mem : Addr → Event) (num : Int32) (want : Bool) (l : List Addr)
    (check : Int32) (f : Frame) :
    ((collectLoop mem num want l check f).2.array num, (collectLoop mem num want l check f).1) =
      infoLoop mem num want l (f.array num) check := by
  induction l generalizing check f with
  | nil => rfl
  | cons a l ih =>
    rw [collectLoop, infoLoop, ih]
    split
    · rw [array_store]
    · rfl

section
variable (mem : Addr → Event) (num : Int32) (want : Bool)

/-- As long as the counter has not wrapped, the indices used lie below `num`. -/
theorem collectLoop_used {l : List Addr} {check : Int32} {n : ℕ} (f : Frame)
    (hn : n < 2147483648 → check.toInt = n) (hl : n + l.length ≤ 2147483648) {i : Int}
    (hi : i ∈ (collectLoop mem num want l check f).2.used) :
    i ∈ f.used ∨ (0 ≤ i ∧ i < num.toInt) := by
  induction l generalizing check n f with
  | nil => exact .inl hi
  | cons a l ih =>
    rw [List.length_cons] at hl
    have hc := hn (by omega)
    rw [collectLoop] at hi
    rcases ih _ (counter_succ hc) (by omega) hi with hi | hi
    · split at hi
      next hlt =>
        have hlt' := Int32.lt_iff_toInt_lt.mp hlt.1
        rcases List.mem_append.mp hi with hi | hi
        · exact .inl hi
        · rw [List.mem_singleton.mp hi]
          omega
      next => exact .inl hi
    · exact .inr hi

/-- Without a pointer nothing is stored. -/
theorem collectLoop_null (l : List Addr) (check : Int32) (f : Frame) :
    (collectLoop mem num false l check f).2 = f := by
  induction l generalizing check with
  | nil => rfl
  | cons a l ih => simp [collectLoop, ih]

/-- After 2^31 events the counter has wrapped to -2^31, and the next one is stored there. -/
theorem collectLoop_wraps {l : List Addr} (hnum : 0 ≤ num.toInt) (hl : 2147483648 < l.length)
    (f : Frame) : -2147483648 ∈ (collectLoop mem num true l 0 f).2.used := by
  obtain ⟨l₁, l₂, rfl, hl₁⟩ : ∃ l₁ l₂, l = l₁ ++ l₂ ∧ l₁.length = 2147483648 :=
    ⟨l.take 2147483648, l.drop 2147483648, (List.take_append_drop ..).symm,
      List.length_take_of_le (by omega)⟩
  cases l₂ with
  | nil =>
    rw [List.append_nil] at hl
    omega
  | cons a l₂ =>
    have hmin : (0 : Int32) + Int32.ofNat 2147483648 = Int32.minValue := rfl
    have hneg : Int32.minValue < num := by
      rw [Int32.lt_iff_toInt_lt]
      have hval : Int32.minValue.toInt = -2147483648 := rfl
      omega
    rw [collectLoop_append, collectLoop_check, hl₁, hmin, collectLoop, if_pos ⟨hneg, rfl⟩]
    exact collectLoop_keeps mem num true l₂ _ _ (List.mem_append_right _ (List.mem_singleton.mpr rfl))

end

/-! ### Size, indices and length -/

/-- The array fits the kernel stack, both loops store inside it, and the length that is copied
out is the size of the array. -/
structure WellSized (mem : Addr → Event) (l : List Addr) (num : Int32) (eventIDs : Option ℕ)
    (word : Int → Int32) : Prop where
  nonneg : 0 ≤ sizeofEventsarray num
  fits : sizeofEventsarray num ≤ threadSize
  filled : ∀ i ∈ (fillLoop num 0 (.fresh word)).used, 0 ≤ i ∧ i ≤ num.toInt - 1
  collected : ∀ i ∈ (collectLoop mem num eventIDs.isSome l 0 (fillLoop num 0 (.fresh word))).2.used,
    0 ≤ i ∧ i ≤ num.toInt - 1
  copied : copyToUserLen (sizeofEventsarray num) = sizeofEventsarray num

/-- The array is well sized exactly for a length from 0 to 2048 and, if ids are collected, at
most 2^31 events. In every case its words and the counter are what the machine computes. -/
theorem info_array_in_bounds (mem : Addr → Event) (l : List Addr) (num : Int32)
    (eventIDs : Option ℕ) (word : Int → Int32) :
    (WellSized mem l num eventIDs word ↔ (0 ≤ num.toInt ∧ num.toInt ≤ 2048) ∧
      (eventIDs = none ∨ l.length ≤ 2147483648)) ∧
    ((collectLoop mem num eventIDs.isSome l 0 (fillLoop num 0 (.fresh word))).2.array num,
      (collectLoop mem num eventIDs.isSome l 0 (fillLoop num 0 (.fresh word))).1) =
        infoLoop mem num eventIDs.isSome l (infoArray num) 0 := by
  have hfilled : ∀ i ∈ (fillLoop num 0 (.fresh word)).used, 0 ≤ i ∧ i < num.toInt := by
    intro i hi
    exact ((fillLoop_used num 0 _ i).mp hi).resolve_left List.not_mem_nil
  refine ⟨⟨fun h => ⟨⟨?_, ?_⟩, ?_⟩, fun h => ?_⟩, by rw [collectLoop_array, fillLoop_array]⟩
  · have hsize := h.nonneg
    rw [sizeofEventsarray] at hsize
    omega
  · have hsize := h.fits
    rw [sizeofEventsarray, threadSize] at hsize
    omega
  · -- a longer list makes the collecting loop store at -2^31
    by_contra hn
    rw [not_or, Nat.not_le] at hn
    obtain ⟨p, hp⟩ := Option.ne_none_iff_exists'.mp hn.1
    have hsize := h.nonneg
    rw [sizeofEventsarray] at hsize
    have hwrap := collectLoop_wraps mem num (by omega) hn.2 (fillLoop num 0 (.fresh word))
    have hindex := h.collected (-2147483648) (by rw [hp]; exact hwrap)
    omega
  · obtain ⟨hnum, hl⟩ := h
    refine ⟨?_, ?_, fun i hi => ?_, fun i hi => ?_, ?_⟩
    · rw [sizeofEventsarray]
      omega
    · rw [sizeofEventsarray, threadSize]
      omega
    · have hin := hfilled i hi
      omega
    · rcases hl with rfl | hl
      · have hin := hfilled i (by rwa [Option.isSome_none, collectLoop_null] at hi)
        omega
      · have hzero : (0 : ℕ) < 2147483648 → (0 : Int32).toInt = ((0 : ℕ) : Int) := fun _ => rfl
        have hin := (collectLoop_used mem num _ _ hzero (by omega) hi).elim (hfilled i) id
        omega
    · rw [copyToUserLen, sizeofEventsarray]
      omega

/-- With `num` -1 and no pointer, as `signal_all` calls it, the array has a negative size;
with `num` 3000 it is larger than the stack; and with `num` 2^30 nothing is copied. -/
theorem info_array_badly_sized :
    entry rootCred (.doeventinfo (-1) none) = .infoProbe (-1) none ∧ sizeofEventsarray (-1) = -4 ∧
    threadSize < sizeofEventsarray 3000 ∧
    sizeofEventsarray 1073741824 = 4294967296 ∧ copyToUserLen (sizeofEventsarray 1073741824) = 0 := by
  decide

end DoEvent
