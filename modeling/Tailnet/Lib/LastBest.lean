import Mathlib

/-! The last one of the best elements of a list: an eligible element with the greatest key, and
among those the one that stands last. -/
namespace Tailnet
open List

section
variable {α : Type} {p : α → Prop} {key : α → ℕ} {xs : List α} {x y : α}

/-- `x` is eligible, no eligible element has a greater key, and those behind it have smaller ones. -/
def LastBest (p : α → Prop) (key : α → ℕ) (xs : List α) (x : α) : Prop :=
  ∃ before after, xs = before ++ x::after ∧ p x ∧
    (∀ y ∈ before, p y → key y ≤ key x) ∧ ∀ y ∈ after, p y → key y < key x

theorem LastBest.mem (h : LastBest p key xs x) : x ∈ xs := by
  obtain ⟨before,after,rfl,-⟩ := h
  simp

theorem LastBest.eligible (h : LastBest p key xs x) : p x := by
  obtain ⟨before,after,-,hx,-⟩ := h
  exact hx

theorem places_cases {b1 a1 b2 a2 : List α} (h : b1 ++ x::a1 = b2 ++ y::a2) :
    x = y ∧ b1 = b2 ∧ a1 = a2 ∨ x ∈ b2 ∧ y ∈ a1 ∨ y ∈ b1 ∧ x ∈ a2 := by
  rcases append_eq_append_iff.mp h with ⟨l,hb,hx⟩ | ⟨l,hb,hy⟩
  · cases l with
    | nil =>
      obtain ⟨hxy,ha⟩ := cons_eq_cons.mp hx
      exact .inl ⟨hxy,by simp [hb],ha⟩
    | cons z l =>
      obtain ⟨rfl,ha⟩ := cons_eq_cons.mp hx
      exact .inr (.inl ⟨by simp [hb],by simp [ha]⟩)
  · cases l with
    | nil =>
      obtain ⟨hxy,ha⟩ := cons_eq_cons.mp hy
      exact .inl ⟨hxy.symm,by simp [hb],ha.symm⟩
    | cons z l =>
      obtain ⟨rfl,ha⟩ := cons_eq_cons.mp hy
      exact .inr (.inr ⟨by simp [hb],by simp [ha]⟩)

theorem LastBest.unique (hx : LastBest p key xs x) (hy : LastBest p key xs y) : x = y := by
  obtain ⟨b1,a1,rfl,px,hb1,ha1⟩ := hx
  obtain ⟨b2,a2,he,py,hb2,ha2⟩ := hy
  rcases places_cases he with ⟨rfl,-⟩ | ⟨hxb,hya⟩ | ⟨hyb,hxa⟩
  · rfl
  · exact absurd (hb2 x hxb px) (ha1 y hya py).not_ge
  · exact absurd (hb1 y hyb py) (ha2 x hxa px).not_ge

theorem exists_lastBest (hx : x ∈ xs) (px : p x) : ∃ y, LastBest p key xs y := by
  induction xs generalizing x with
  | nil => cases hx
  | cons z xs ih =>
    by_cases hrest : ∃ y ∈ xs, p y
    · obtain ⟨y,hy,py⟩ := hrest
      obtain ⟨w,b,a,rfl,pw,hb,ha⟩ := ih hy py
      by_cases hz : p z ∧ key w < key z
      · refine ⟨z,[],_,rfl,hz.1,fun _ h => by (cases h),fun y hy py => ?_⟩
        rcases mem_append.mp hy with hy | hy
        · exact (hb y hy py).trans_lt hz.2
        · rcases mem_cons.mp hy with rfl | hy
          · exact hz.2
          · exact (ha y hy py).trans hz.2
      · refine ⟨w,z::b,a,rfl,pw,fun y hy py => ?_,ha⟩
        rcases mem_cons.mp hy with rfl | hy
        · exact not_lt.mp fun h => hz ⟨py,h⟩
        · exact hb y hy py
    · rcases mem_cons.mp hx with rfl | hx
      · exact ⟨x,[],xs,rfl,px,fun _ h => by (cases h),fun y hy py => absurd ⟨y,hy,py⟩ hrest⟩
      · exact absurd ⟨x,hx,px⟩ hrest

/-- A last best element that passes a filter is the last best one of those that pass. -/
theorem LastBest.filter (h : LastBest p key xs x) (f : α → Bool) (hf : f x = true) :
    LastBest p key (xs.filter f) x := by
  obtain ⟨b,a,rfl,px,hb,ha⟩ := h
  refine ⟨b.filter f,a.filter f,by simp [hf],px,fun y hy => hb y (mem_filter.mp hy).1,
    fun y hy => ha y (mem_filter.mp hy).1⟩

end

end Tailnet
