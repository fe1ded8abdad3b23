import Mathlib.Data.List.Chain
import Mathlib.Data.List.Nodup
import Mathlib.Logic.Function.Basic

/-!
# Doubly linked rings

Nodes with a `next` and a `prev` link, in a ring through a head node that is not a member.
The members are the list of nodes met on the way from the head back to the head. Adding
before the head and unlinking a member are given as the single stores that carry them out.
-/

namespace Shared

variable {α : Type*}

structure Links (α : Type*) where
  next : α → α
  prev : α → α

namespace Links

/-- `b` follows `a`, and `a` precedes `b`. -/
def Joined (k : Links α) (a b : α) : Prop := k.next a = b ∧ k.prev b = a

/-- The ring through the head `h` with the members `l`. -/
structure Ring (k : Links α) (h : α) (l : List α) : Prop where
  joined : (h :: (l ++ [h])).IsChain k.Joined
  nodup : (h :: l).Nodup

/-- A part of a ring needs the links that lead on from all but its last node, and back from
all but its first. -/
theorem chain_congr {k k' : Links α} {l : List α} (h : l.IsChain k.Joined)
    (hnext : ∀ a ∈ l.dropLast, k'.next a = k.next a) (hprev : ∀ a ∈ l.tail, k'.prev a = k.prev a) :
    l.IsChain k'.Joined := by
  induction l with
  | nil => exact .nil
  | cons a l ih =>
    cases l with
    | nil => exact .singleton a
    | cons b l =>
      obtain ⟨hab, hrest⟩ := List.isChain_cons_cons.mp h
      rw [List.dropLast_cons_cons] at hnext
      refine List.isChain_cons_cons.mpr ⟨⟨?_, ?_⟩, ih hrest ?_ ?_⟩
      · rw [hnext a (List.mem_cons_self ..)]
        exact hab.1
      · rw [hprev b (List.mem_cons_self ..)]
        exact hab.2
      · exact fun c hc => hnext c (List.mem_cons_of_mem _ hc)
      · exact fun c hc => hprev c (List.mem_cons_of_mem _ hc)

theorem chain_iterate {k : Links α} {a : α} {l : List α} (h : (a :: l).IsChain k.Joined) :
    List.iterate k.next (k.next a) l.length = l := by
  induction l generalizing a with
  | nil => rfl
  | cons b l ih =>
    obtain ⟨hab, hrest⟩ := List.isChain_cons_cons.mp h
    rw [List.length_cons, List.iterate, hab.1, ih hrest]

theorem chain_prev_next {k : Links α} {a : α} {l : List α} (h : l.IsChain k.Joined)
    (ha : a ∈ l.dropLast) : k.prev (k.next a) = a := by
  induction l with
  | nil => cases ha
  | cons b l ih =>
    cases l with
    | nil => cases ha
    | cons c l =>
      obtain ⟨hbc, hrest⟩ := List.isChain_cons_cons.mp h
      rw [List.dropLast_cons_cons] at ha
      rcases List.mem_cons.mp ha with rfl | ha
      · rw [hbc.1, hbc.2]
      · exact ih hrest ha

theorem chain_next_prev {k : Links α} {a : α} {l : List α} (h : l.IsChain k.Joined)
    (ha : a ∈ l.tail) : k.next (k.prev a) = a := by
  induction l with
  | nil => cases ha
  | cons b l ih =>
    cases l with
    | nil => cases ha
    | cons c l =>
      obtain ⟨hbc, hrest⟩ := List.isChain_cons_cons.mp h
      rcases List.mem_cons.mp ha with rfl | ha
      · rw [hbc.2, hbc.1]
      · exact ih hrest ha

section
variable {k k' : Links α} {h a : α} {l xs ys : List α}

theorem ring_nil (hnext : k.next h = h) (hprev : k.prev h = h) : k.Ring h [] :=
  ⟨List.isChain_pair.mpr ⟨hnext, hprev⟩, List.nodup_singleton h⟩

/-- A ring is kept by what happens to other nodes. -/
theorem Ring.congr (hr : k.Ring h l) (hsame : ∀ a ∈ h :: l, k'.next a = k.next a ∧ k'.prev a = k.prev a) :
    k'.Ring h l := by
  refine ⟨chain_congr hr.joined ?_ ?_, hr.nodup⟩
  · intro a ha
    rw [← List.cons_append, List.dropLast_concat] at ha
    exact (hsame a ha).1
  · intro a ha
    rw [List.tail_cons, List.mem_append, List.mem_singleton] at ha
    exact (hsame a (by simpa [or_comm] using ha)).2

theorem Ring.ne_head (hr : k.Ring h l) (ha : a ∈ l) : a ≠ h := by
  rintro rfl
  exact (List.nodup_cons.mp hr.nodup).1 ha

/-- The links determine the way from a node to the head. -/
theorem chain_unique (hl : h ∉ l) (hj : (a :: (l ++ [h])).IsChain k.Joined) (hx : h ∉ xs)
    (hj' : (a :: (xs ++ [h])).IsChain k.Joined) : l = xs := by
  induction l generalizing a xs with
  | nil =>
    cases xs with
    | nil => rfl
    | cons b xs =>
      have hb := (List.isChain_cons_cons.mp hj').1.1
      rw [(List.isChain_cons_cons.mp hj).1.1] at hb
      exact absurd (hb ▸ List.mem_cons_self ..) hx
  | cons b l ih =>
    obtain ⟨hab, hrest⟩ := List.isChain_cons_cons.mp hj
    cases xs with
    | nil =>
      have hb := (List.isChain_cons_cons.mp hj').1.1
      rw [hab.1] at hb
      exact absurd (hb ▸ List.mem_cons_self ..) hl
    | cons c xs =>
      obtain ⟨hac, hrest'⟩ := List.isChain_cons_cons.mp hj'
      have hbc : b = c := hab.1.symm.trans hac.1
      subst hbc
      rw [ih (fun hm => hl (List.mem_cons_of_mem _ hm)) hrest
        (fun hm => hx (List.mem_cons_of_mem _ hm)) hrest']

theorem Ring.unique (hr : k.Ring h l) (hr' : k.Ring h xs) : l = xs :=
  chain_unique (List.nodup_cons.mp hr.nodup).1 hr.joined (List.nodup_cons.mp hr'.nodup).1 hr'.joined

theorem Ring.next_head (hr : k.Ring h l) : k.next h = l.headD h := by
  cases l with
  | nil => exact (List.isChain_cons_cons.mp hr.joined).1.1
  | cons a l => exact (List.isChain_cons_cons.mp hr.joined).1.1

/-- The ring, cut open at a member. -/
theorem Ring.joined_at (hr : k.Ring h (xs ++ a :: ys)) :
    (h :: xs ++ a :: (ys ++ [h])).IsChain k.Joined := by
  have hj := hr.joined
  rwa [List.append_assoc] at hj

theorem Ring.next_member (hr : k.Ring h (xs ++ a :: ys)) : k.next a = ys.headD h := by
  have hj := (List.isChain_split.mp hr.joined_at).2
  cases ys with
  | nil => exact (List.isChain_cons_cons.mp hj).1.1
  | cons b ys => exact (List.isChain_cons_cons.mp hj).1.1

/-- The way from the head through all members and back. -/
theorem Ring.iterate_next (hr : k.Ring h l) :
    List.iterate k.next (k.next h) (l.length + 1) = l ++ [h] := by
  have hi := chain_iterate hr.joined
  rwa [List.length_append, List.length_singleton] at hi

theorem Ring.inverse (hr : k.Ring h l) (ha : a ∈ h :: l) :
    k.prev (k.next a) = a ∧ k.next (k.prev a) = a := by
  have hbefore : a ∈ (h :: (l ++ [h])).dropLast := by
    rwa [← List.cons_append, List.dropLast_concat]
  have hafter : a ∈ (h :: (l ++ [h])).tail := by
    rw [List.tail_cons, List.mem_append, List.mem_singleton]
    exact (List.mem_cons.mp ha).symm
  exact ⟨chain_prev_next hr.joined hbefore, chain_next_prev hr.joined hafter⟩

/-- A member is preceded by the one before it, or by the head. -/
theorem Ring.prev_member (hr : k.Ring h (xs ++ a :: ys)) : k.prev a = xs.getLast?.getD h := by
  obtain ⟨us, p, hus⟩ : ∃ us p, h :: xs = us ++ [p] :=
    ⟨_, _, (List.dropLast_append_getLast (List.cons_ne_nil h xs)).symm⟩
  have hj := hr.joined_at
  rw [hus, List.append_assoc, List.singleton_append, List.isChain_append_cons_cons] at hj
  have hp : some (xs.getLast?.getD h) = some p := by
    rw [← List.getLast?_cons, hus, List.getLast?_concat]
  rw [Option.some.inj hp]
  exact hj.2.1.2

theorem Ring.prev_last (hr : k.Ring h (xs ++ [a])) : k.prev a = xs.getLast?.getD h := hr.prev_member

theorem Ring.next_mem (hr : k.Ring h l) (ha : a ∈ l) : k.next a ∈ h :: l := by
  obtain ⟨xs, ys, rfl⟩ := List.append_of_mem ha
  rw [hr.next_member]
  cases ys with
  | nil => exact List.mem_cons_self ..
  | cons b ys => simp

theorem Ring.prev_mem (hr : k.Ring h l) (ha : a ∈ l) : k.prev a ∈ h :: l := by
  obtain ⟨xs, ys, rfl⟩ := List.append_of_mem ha
  rw [hr.prev_member]
  cases hx : xs.getLast? with
  | none => exact List.mem_cons_self ..
  | some b => exact List.mem_cons_of_mem _ (List.mem_append_left _ (List.mem_of_getLast? hx))

theorem Ring.next_ne (hr : k.Ring h l) (ha : a ∈ l) : k.next a ≠ a := by
  obtain ⟨xs, ys, rfl⟩ := List.append_of_mem ha
  rw [hr.next_member]
  have hnodup := (List.nodup_append.mp (List.nodup_cons.mp hr.nodup).2).2.1
  cases ys with
  | nil => exact fun he => hr.ne_head ha he.symm
  | cons b ys => exact fun he => (List.nodup_cons.mp hnodup).1 (he ▸ List.mem_cons_self ..)

/-- Only the head can be on both sides of a member. -/
theorem Ring.next_of_prev_eq (hr : k.Ring h l) (ha : a ∈ l) (he : k.prev a = k.next a) :
    k.next a = h := by
  have hback : k.next (k.next a) = a := by
    rw [← he]
    exact (hr.inverse (List.mem_cons_of_mem _ ha)).2
  obtain ⟨xs, ys, rfl⟩ := List.append_of_mem ha
  rw [hr.next_member] at hback ⊢
  cases ys with
  | nil => rfl
  | cons b ys =>
    have hr' : k.Ring h (xs ++ [a] ++ b :: ys) := by simpa using hr
    rw [List.headD_cons, hr'.next_member] at hback
    have hnodup := (List.nodup_append.mp (List.nodup_cons.mp hr.nodup).2).2.1
    cases ys with
    | nil => exact absurd hback.symm (hr.ne_head ha)
    | cons c ys =>
      have hca : c = a := hback
      exact absurd (by simp [hca]) (List.nodup_cons.mp hnodup).1

/-! ### Adding before the head -/

variable [DecidableEq α]

def setNext (k : Links α) (a b : α) : Links α := { k with next := Function.update k.next a b }

def setPrev (k : Links α) (a b : α) : Links α := { k with prev := Function.update k.prev a b }

/-- The stores that put `a` between `p` and `n`. -/
def link (k : Links α) (a p n : α) : Links α :=
  (((k.setPrev n a).setNext a n).setPrev a p).setNext p a

/-- The stores that take out `a`, which is between `p` and `n`, and close it on itself. -/
def unlink (k : Links α) (a p n : α) : Links α :=
  (((k.setPrev n p).setNext p n).setNext a a).setPrev a a

theorem link_next (k : Links α) (a p n x : α) :
    (k.link a p n).next x = if x = p then a else if x = a then n else k.next x := by
  simp [link, setNext, setPrev, Function.update_apply]

theorem link_prev (k : Links α) (a p n x : α) :
    (k.link a p n).prev x = if x = a then p else if x = n then a else k.prev x := by
  simp [link, setNext, setPrev, Function.update_apply]

theorem unlink_next (k : Links α) (a p n x : α) :
    (k.unlink a p n).next x = if x = a then a else if x = p then n else k.next x := by
  simp [unlink, setNext, setPrev, Function.update_apply]

theorem unlink_prev (k : Links α) (a p n x : α) :
    (k.unlink a p n).prev x = if x = a then a else if x = n then p else k.prev x := by
  simp [unlink, setNext, setPrev, Function.update_apply]

theorem Ring.addTail (hr : k.Ring h l) (ha : a ∉ h :: l) :
    (k.link a (k.prev h) h).Ring h (l ++ [a]) := by
  -- `p` is the last node, and `xs` are the nodes before it
  obtain ⟨xs, p, hsplit⟩ : ∃ xs p, h :: l = xs ++ [p] :=
    ⟨_, _, (List.dropLast_append_getLast (List.cons_ne_nil h l)).symm⟩
  have hj := hr.joined
  rw [← List.cons_append, hsplit, List.append_assoc, List.singleton_append,
    List.isChain_append_cons_cons] at hj
  obtain ⟨hchain, ⟨_, hph⟩, _⟩ := hj
  have hnodup := hr.nodup
  rw [hsplit, List.nodup_append] at hnodup
  have hah : a ≠ h := fun he => ha (he ▸ List.mem_cons_self ..)
  have hap : a ≠ p := fun he => ha (hsplit ▸ he ▸ List.mem_append_right _ (List.mem_singleton_self _))
  rw [hph]
  refine ⟨?_, ?_⟩
  · have hshape : h :: (l ++ [a] ++ [h]) = xs ++ p :: a :: [h] := by
      rw [List.append_assoc, ← List.cons_append, hsplit]
      simp
    rw [hshape, List.isChain_append_cons_cons]
    refine ⟨chain_congr hchain ?_ ?_, ⟨?_, ?_⟩, List.isChain_pair.mpr ⟨?_, ?_⟩⟩
    · intro x hx
      rw [List.dropLast_concat] at hx
      have hxp : x ≠ p := hnodup.2.2 x hx p (List.mem_singleton_self p)
      have hxa : x ≠ a := fun he => ha (hsplit ▸ he ▸ List.mem_append_left _ hx)
      rw [link_next, if_neg hxp, if_neg hxa]
    · intro x hx
      rw [← hsplit, List.tail_cons] at hx
      have hxa : x ≠ a := fun he => ha (he ▸ List.mem_cons_of_mem _ hx)
      have hxh : x ≠ h := fun he => (List.nodup_cons.mp hr.nodup).1 (he ▸ hx)
      rw [link_prev, if_neg hxa, if_neg hxh]
    · rw [link_next, if_pos rfl]
    · rw [link_prev, if_pos rfl]
    · rw [link_next, if_neg hap, if_pos rfl]
    · rw [link_prev, if_neg hah.symm, if_pos rfl]
  · rw [← List.cons_append]
    exact List.nodup_append.mpr ⟨hr.nodup, List.nodup_singleton a, fun x hx y hy he =>
      ha (List.mem_singleton.mp hy ▸ he ▸ hx)⟩

/-! ### Adding after the head -/

theorem Ring.addHead (hr : k.Ring h l) (ha : a ∉ h :: l) : (k.link a h (k.next h)).Ring h (a :: l) := by
  have hah : a ≠ h := fun he => ha (he ▸ List.mem_cons_self ..)
  have hal : a ∉ l := fun hm => ha (List.mem_cons_of_mem _ hm)
  have hnodup : (h :: a :: l).Nodup := by
    obtain ⟨hhl, hl⟩ := List.nodup_cons.mp hr.nodup
    exact List.nodup_cons.mpr ⟨by simp [hhl, Ne.symm hah], List.nodup_cons.mpr ⟨hal, hl⟩⟩
  refine ⟨?_, hnodup⟩
  rw [hr.next_head]
  cases l with
  | nil =>
    refine List.isChain_cons_cons.mpr ⟨⟨?_, ?_⟩, List.isChain_pair.mpr ⟨?_, ?_⟩⟩
    · rw [link_next, if_pos rfl]
    · rw [link_prev, if_pos rfl]
    · rw [link_next, if_neg hah, if_pos rfl]
      rfl
    · rw [link_prev, if_neg (Ne.symm hah), List.headD_nil, if_pos rfl]
  | cons b l =>
    obtain ⟨hhb, hl⟩ := List.nodup_cons.mp hr.nodup
    have hba : b ≠ a := fun he => hal (he ▸ List.mem_cons_self ..)
    rw [List.headD_cons]
    refine List.isChain_cons_cons.mpr ⟨⟨?_, ?_⟩, List.isChain_cons_cons.mpr ⟨⟨?_, ?_⟩,
      chain_congr (List.isChain_cons_cons.mp hr.joined).2 ?_ ?_⟩⟩
    · rw [link_next, if_pos rfl]
    · rw [link_prev, if_pos rfl]
    · rw [link_next, if_neg hah, if_pos rfl]
    · rw [link_prev, if_neg hba, if_pos rfl]
    · intro x hx
      change x ∈ (b :: l ++ [h]).dropLast at hx
      rw [List.dropLast_concat] at hx
      have hxh : x ≠ h := fun he => hhb (he ▸ hx)
      have hxa : x ≠ a := fun he => hal (he ▸ hx)
      rw [link_next, if_neg hxh, if_neg hxa]
    · intro x hx
      change x ∈ l ++ [h] at hx
      rw [List.mem_append, List.mem_singleton] at hx
      have hxa : x ≠ a := by
        rintro rfl
        rcases hx with hx | hx
        · exact hal (List.mem_cons_of_mem _ hx)
        · exact hah hx
      have hxb : x ≠ b := by
        rintro rfl
        rcases hx with hx | hx
        · exact (List.nodup_cons.mp hl).1 hx
        · exact hhb (hx ▸ List.mem_cons_self ..)
      rw [link_prev, if_neg hxa, if_neg hxb]

/-! ### Taking out a member -/

theorem Ring.unlink (hr : k.Ring h l) (ha : a ∈ l) :
    (k.unlink a (k.prev a) (k.next a)).Ring h (l.erase a) := by
  obtain ⟨xs, ys, rfl⟩ := List.append_of_mem ha
  -- `p` is the node before `a` and `n` the node after it
  obtain ⟨us, p, hus⟩ : ∃ us p, h :: xs = us ++ [p] :=
    ⟨_, _, (List.dropLast_append_getLast (List.cons_ne_nil h xs)).symm⟩
  obtain ⟨n, vs, hvs⟩ : ∃ n vs, ys ++ [h] = n :: vs := by
    cases ys with
    | nil => exact ⟨h, [], rfl⟩
    | cons y ys => exact ⟨y, ys ++ [h], rfl⟩
  have hj := hr.joined_at
  rw [hvs, hus, List.append_assoc, List.singleton_append, List.isChain_append_cons_cons,
    List.isChain_cons_cons] at hj
  obtain ⟨hbefore, ⟨_, hpa⟩, ⟨hna, _⟩, hafter⟩ := hj
  have hnodup := hr.nodup
  rw [← List.cons_append, List.nodup_append, List.nodup_cons (a := a)] at hnodup
  obtain ⟨hx, ⟨hay, hy⟩, hxy⟩ := hnodup
  have hax : a ∉ h :: xs := fun hm => hxy a hm a (List.mem_cons_self ..) rfl
  have hp : p ∈ h :: xs := hus ▸ List.mem_append_right _ (List.mem_singleton_self p)
  have hpy : ∀ x ∈ ys, x ≠ p := fun x hx he => hxy p hp x (List.mem_cons_of_mem _ hx) he.symm
  have hn : n = h ∨ n ∈ ys := by
    have hmem : n ∈ ys ++ [h] := hvs ▸ List.mem_cons_self ..
    simpa [or_comm] using hmem
  rw [hpa, hna, List.erase_append_right _ fun hm => hax (List.mem_cons_of_mem _ hm),
    List.erase_cons_head]
  refine ⟨?_, ?_⟩
  · have hshape : h :: (xs ++ ys ++ [h]) = us ++ p :: n :: vs := by
      rw [List.append_assoc, ← List.cons_append, hus, hvs]
      simp
    rw [hshape, List.isChain_append_cons_cons]
    refine ⟨chain_congr hbefore ?_ ?_, ⟨?_, ?_⟩, chain_congr hafter ?_ ?_⟩
    · intro x hx'
      rw [List.dropLast_concat] at hx'
      have hmem : x ∈ h :: xs := hus ▸ List.mem_append_left _ hx'
      have hxp : x ≠ p := by
        rw [hus, List.nodup_append] at hx
        exact hx.2.2 x hx' p (List.mem_singleton_self p)
      have hxa : x ≠ a := fun he => hax (he ▸ hmem)
      rw [unlink_next, if_neg hxa, if_neg hxp]
    · intro x hx'
      rw [← hus, List.tail_cons] at hx'
      have hxn : x ≠ n := by
        rintro rfl
        rcases hn with rfl | hn
        · exact (List.nodup_cons.mp hx).1 hx'
        · exact hxy x (List.mem_cons_of_mem _ hx') x (List.mem_cons_of_mem _ hn) rfl
      have hxa : x ≠ a := fun he => hax (he ▸ List.mem_cons_of_mem _ hx')
      rw [unlink_prev, if_neg hxa, if_neg hxn]
    · have hpa' : p ≠ a := fun he => hax (he ▸ hp)
      rw [unlink_next, if_neg hpa', if_pos rfl]
    · have hnaeq : n ≠ a := by
        rintro rfl
        rcases hn with rfl | hn
        · exact hax (List.mem_cons_self ..)
        · exact hay hn
      rw [unlink_prev, if_neg hnaeq, if_pos rfl]
    · intro x hx'
      rw [← hvs, List.dropLast_concat] at hx'
      have hxa : x ≠ a := fun he => hay (he ▸ hx')
      rw [unlink_next, if_neg hxa, if_neg (hpy x hx')]
    · intro x hx'
      have hmem : x ∈ ys ++ [h] := hvs ▸ List.mem_cons_of_mem _ hx'
      have hclosed : (n :: vs).Nodup := by
        rw [← hvs]
        refine List.nodup_append.mpr ⟨hy, List.nodup_singleton h, ?_⟩
        rintro x hx y hy rfl
        rw [List.mem_singleton] at hy
        exact hxy h (List.mem_cons_self ..) x (List.mem_cons_of_mem _ hx) hy.symm
      have hxa : x ≠ a := by
        rintro rfl
        rcases List.mem_append.mp hmem with hm | hm
        · exact hay hm
        · exact hax (List.mem_singleton.mp hm ▸ List.mem_cons_self ..)
      have hxn : x ≠ n := fun he => (List.nodup_cons.mp hclosed).1 (he ▸ hx')
      rw [unlink_prev, if_neg hxa, if_neg hxn]
  · rw [← List.cons_append]
    exact List.nodup_append.mpr ⟨hx, hy, fun x hx y hy => hxy x hx y (List.mem_cons_of_mem _ hy)⟩

/-! ### Single stores -/

inductive Store (α : Type*) where
  | next (a b : α)
  | prev (a b : α)
  deriving DecidableEq, Repr

/-- The node that a store is made to. -/
def Store.node : Store α → α
  | .next a _ | .prev a _ => a

def store (k : Links α) : Store α → Links α
  | .next a b => k.setNext a b
  | .prev a b => k.setPrev a b

def storeAll (k : Links α) (todo : List (Store α)) : Links α := todo.foldl store k

def linkStores (a p n : α) : List (Store α) := [.prev n a, .next a n, .prev a p, .next p a]

def unlinkStores (a p n : α) : List (Store α) := [.prev n p, .next p n, .next a a, .prev a a]

def Same (k' k : Links α) (a : α) : Prop := k'.next a = k.next a ∧ k'.prev a = k.prev a

def SelfLinked (k : Links α) (a : α) : Prop := k.next a = a ∧ k.prev a = a

omit [DecidableEq α] in
theorem Same.rfl : k.Same k a := ⟨Eq.refl _, Eq.refl _⟩

omit [DecidableEq α] in
theorem SelfLinked.congr (hs : k.SelfLinked a) (h : k'.Same k a) : k'.SelfLinked a :=
  ⟨h.1.trans hs.1, h.2.trans hs.2⟩

theorem store_same {w : Store α} (h : w.node ≠ a) : (k.store w).Same k a := by
  cases w with
  | next b c => exact ⟨Function.update_of_ne (Ne.symm h) .., Eq.refl _⟩
  | prev b c => exact ⟨Eq.refl _, Function.update_of_ne (Ne.symm h) ..⟩

/-- What a node becomes depends on that node only. -/
theorem storeAll_same (h : k'.Same k a) (todo : List (Store α)) :
    (k'.storeAll todo).Same (k.storeAll todo) a := by
  induction todo generalizing k k' with
  | nil => exact h
  | cons w todo ih =>
    refine ih ?_
    by_cases ha : w.node = a
    · subst ha
      cases w with
      | next a b => exact ⟨by simp [store, setNext, Store.node], h.2⟩
      | prev a b => exact ⟨h.1, by simp [store, setPrev, Store.node]⟩
    · have hk := store_same (k := k) ha
      have hk' := store_same (k := k') ha
      exact ⟨by rw [hk'.1, hk.1, h.1], by rw [hk'.2, hk.2, h.2]⟩

theorem storeAll_elsewhere {todo : List (Store α)} (h : ∀ w ∈ todo, w.node ≠ a) :
    (k.storeAll todo).Same k a := by
  induction todo generalizing k with
  | nil => exact .rfl
  | cons w todo ih =>
    have hw := store_same (k := k) (h w (List.mem_cons_self ..))
    have hrest := @ih (k.store w) fun v hv => h v (List.mem_cons_of_mem _ hv)
    exact ⟨hrest.1.trans hw.1, hrest.2.trans hw.2⟩

end

end Links

end Shared
