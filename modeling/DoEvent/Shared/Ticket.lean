import Mathlib.Algebra.Order.Ring.Nat
import Mathlib.Data.List.Nodup

/-!
# A line with numbered tickets

Everybody in a line has a number of `w` bits: the first the number that is being served, and
everybody else the number after that of the one before. Numbers wrap around. In a line that
is not longer than there are numbers, the first is the only one whose number is served.
-/

namespace Shared

variable {ι : Type*} {w : ℕ} {ticket ticket' : ι → BitVec w} {head tail : BitVec w} {q : List ι}
  {i : ι}

/-- The members of the list have the numbers from `head` on; `tail` is handed out next. -/
def Line (ticket : ι → BitVec w) : BitVec w → List ι → BitVec w → Prop
  | head, [], tail => tail = head
  | head, i :: q, tail => ticket i = head ∧ Line ticket (head + 1) q tail

theorem Line.join (h : Line ticket head q tail) (hi : ticket i = tail) :
    Line ticket head (q ++ [i]) (tail + 1) := by
  induction q generalizing head with
  | nil =>
    have hhead : tail = head := h
    exact ⟨hi.trans hhead, by rw [hhead]; rfl⟩
  | cons j q ih => exact ⟨h.1, ih h.2⟩

theorem Line.congr (h : Line ticket head q tail) (he : ∀ i ∈ q, ticket' i = ticket i) :
    Line ticket' head q tail := by
  induction q generalizing head with
  | nil => exact h
  | cons j q ih =>
    exact ⟨(he j (List.mem_cons_self ..)).trans h.1, ih h.2 fun i hi => he i (List.mem_cons_of_mem _ hi)⟩

/-- Those before somebody are a line of their own, up to that number. -/
theorem Line.before {xs ys : List ι} (h : Line ticket head (xs ++ i :: ys) tail) :
    Line ticket head xs (ticket i) := by
  induction xs generalizing head with
  | nil => exact h.1
  | cons j xs ih => exact ⟨h.1, ih h.2⟩

theorem Line.tail_toNat (h : Line ticket head q tail) :
    tail.toNat = (head.toNat + q.length) % 2 ^ w := by
  induction q generalizing head with
  | nil =>
    have hhead : tail = head := h
    rw [hhead, List.length_nil, Nat.add_zero, Nat.mod_eq_of_lt head.isLt]
  | cons j q ih =>
    have hone : (1 : BitVec w).toNat = 1 % 2 ^ w := BitVec.toNat_ofNat 1 w
    rw [ih h.2, BitVec.toNat_add, hone, List.length_cons, Nat.add_mod_mod, Nat.mod_add_mod,
      Nat.add_assoc, Nat.add_comm 1]

theorem Line.tail_ne (h : Line ticket head q tail) (hq : q ≠ []) (hlen : q.length < 2 ^ w) :
    tail ≠ head := by
  intro he
  have hpos := List.length_pos_iff.mpr hq
  have htail := h.tail_toNat
  have hlt := head.isLt
  rw [he] at htail
  rcases Nat.lt_or_ge (head.toNat + q.length) (2 ^ w) with hsmall | hwrap
  · rw [Nat.mod_eq_of_lt hsmall] at htail
    omega
  · rw [Nat.mod_eq_sub_mod hwrap, Nat.mod_eq_of_lt (by omega)] at htail
    omega

theorem Line.served_iff (h : Line ticket head q tail) (hlen : q.length ≤ 2 ^ w) (hi : i ∈ q) :
    ticket i = head ↔ q.head? = some i := by
  constructor
  · intro hserved
    obtain ⟨xs, ys, rfl⟩ := List.append_of_mem hi
    cases xs with
    | nil => rfl
    | cons j xs =>
      rw [List.length_append, List.length_cons (a := i)] at hlen
      exact absurd hserved (h.before.tail_ne (List.cons_ne_nil j xs) (by omega))
  · intro hfirst
    cases q with
    | nil => cases hi
    | cons j q =>
      cases hfirst
      exact h.1

end Shared
