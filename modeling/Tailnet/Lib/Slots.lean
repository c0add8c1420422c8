import Tailnet.Lib.Blocks

/-! Numbered slots. A list of optional values stands for a partial map from numbers; empty slots at the end
are dropped, and the other empty ones are kept in a free list. A new value takes the least number without
one. -/
namespace Tailnet
open Function List

namespace Slots
variable {V : Type} {l : List (Option V)} {free : Finset ℕ}

def read (l : List (Option V)) (i : ℕ) : Option V := l[i]?.join

/-- Drop the empty slots at the end. -/
def compact (l : List (Option V)) : List (Option V) := l.rdropWhile Option.isNone

theorem read_of_le {i : ℕ} (h : l.length ≤ i) : read l i = none := by
  rw [read,List.getElem?_eq_none h]
  rfl

theorem lt_of_read {i : ℕ} {v : V} (h : read l i = some v) : i < l.length := by
  by_contra hc
  rw [read_of_le (by omega)] at h
  cases h

theorem getElem?_of_read {i : ℕ} {v : V} (h : read l i = some v) : l[i]? = some (some v) := Option.join_eq_some_iff.mp h

theorem read_set {i : ℕ} (h : i < l.length) (o : Option V) : read (l.set i o) = update (read l) i o := by
  funext j
  by_cases hj : j = i
  · subst hj
    simp [read,h]
  · have hne : i ≠ j := fun h => hj h.symm
    simp [read,hj,List.getElem?_set_ne hne]

theorem read_push (o : Option V) : read (l ++ [o]) = update (read l) l.length o := by
  funext j
  rcases lt_trichotomy j l.length with hj | rfl | hj
  · simp [read,hj.ne,List.getElem?_append_left hj]
  · simp [read]
  · rw [update_of_ne hj.ne',read_of_le (by simpa using hj),read_of_le hj.le]

theorem length_compact_le : (compact l).length ≤ l.length := by
  have h := rdropWhile_prefix Option.isNone l
  exact h.length_le

@[simp] theorem read_compact : read (compact l) = read l := by
  funext i
  induction l using List.reverseRecOn with
  | nil => rfl
  | append_singleton l x ih =>
    cases x with
    | none =>
      rw [compact,rdropWhile_concat_pos _ _ _ rfl,read_push]
      by_cases hi : i = l.length
      · rw [hi,update_self]
        exact read_of_le length_compact_le
      · rw [update_of_ne hi]
        exact ih
    | some v => rw [compact,rdropWhile_concat_neg _ _ _ (by simp)]

theorem getLast?_compact : (compact l).getLast? ≠ some none := by
  intro h
  have hne : compact l ≠ [] := by
    intro he
    simp [he] at h
  rw [List.getLast?_eq_some_getLast hne,Option.some.injEq] at h
  have hlast := rdropWhile_last_not Option.isNone l hne
  exact hlast (Option.isNone_iff_eq_none.mpr h)

/-- The free list holds the empty slots. -/
def Fits (l : List (Option V)) (free : Finset ℕ) : Prop := ∀ i, i ∈ free ↔ i < l.length ∧ read l i = none

theorem Fits.mem_iff {free : Finset ℕ} (h : Fits l free) (i : ℕ) : i ∈ free ↔ l[i]? = some none := by
  rw [h i,read]
  cases hi : l[i]? with
  | none => simp [List.getElem?_eq_none_iff.mp hi]
  | some o => simp [(List.getElem?_eq_some_iff.mp hi).1]

/-- Moreover the last slot is not empty. -/
structure Tidy (l : List (Option V)) (free : Finset ℕ) : Prop where
  fits : Fits l free
  last : l.getLast? ≠ some none

theorem Tidy.nil : Tidy ([] : List (Option V)) ∅ := ⟨fun i => by simp,by simp⟩

/-- Dropping the end of the slots and of the free list. -/
theorem Fits.compact {free' : Finset ℕ} (h : Fits l free)
    (hfree : ∀ i, i ∈ free' ↔ i ∈ free ∧ i < (Slots.compact l).length) : Tidy (Slots.compact l) free' := by
  refine ⟨fun i => ?_,getLast?_compact⟩
  rw [hfree,h,read_compact]
  constructor
  · exact fun hi => ⟨hi.2,hi.1.2⟩
  · exact fun hi => ⟨⟨hi.1.trans_le length_compact_le,hi.2⟩,hi.1⟩

theorem Fits.least_of_some (h : Fits l free) {i : ℕ} (hi : IsFirst free (some i)) :
    IsLeast {j | read l j = none} i := by
  refine ⟨((h i).mp hi.mem).2,fun j hj => ?_⟩
  by_cases hlt : j < l.length
  · exact hi.2 ((h j).mpr ⟨hlt,hj⟩)
  · have := ((h i).mp hi.mem).1
    omega

theorem Fits.least_of_none (h : Fits l free) (hi : IsFirst free none) : IsLeast {j | read l j = none} l.length := by
  refine ⟨read_of_le le_rfl,fun j hj => ?_⟩
  by_contra hlt
  have : j ∈ free := (h j).mpr ⟨by omega,hj⟩
  rw [hi] at this
  simp at this

theorem Fits.set (h : Fits l free) {i : ℕ} (hi : i < l.length) (v : V) {free' : Finset ℕ}
    (hfree : ∀ j, j ∈ free' ↔ j ≠ i ∧ j ∈ free) : Fits (l.set i (some v)) free' := by
  intro j
  rw [hfree,h,read_set hi,length_set]
  by_cases hj : j = i <;> simp [hj]

theorem Fits.push (h : Fits l free) (v : V) : Fits (l ++ [some v]) free := by
  intro j
  rw [h,read_push,length_append,length_singleton]
  by_cases hj : j = l.length
  · simp [hj]
  · rw [update_of_ne hj]
    constructor
    · exact fun hlt => ⟨by omega,hlt.2⟩
    · exact fun hlt => ⟨by omega,hlt.2⟩

theorem Fits.release (h : Fits l free) {i : ℕ} (hi : i < l.length) {free' : Finset ℕ}
    (hfree : ∀ j, j ∈ free' ↔ j = i ∨ j ∈ free) : Fits (l.set i none) free' := by
  intro j
  rw [hfree,h,read_set hi,length_set]
  by_cases hj : j = i <;> simp [hj,hi]

end Slots
end Tailnet
