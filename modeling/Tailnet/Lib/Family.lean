import Tailnet.Lib.Result

/-! Families of states with a fixed list of members. A computation that is run on the members one
after the other returns if it does so on each of them. -/
namespace Tailnet

section
variable {ι : Type} [DecidableEq ι] {σ : ι → Type}

/-- Run a computation on the members of a family, one after the other. -/
def mapFamily (names : List ι) (f : (i : ι) → σ i → Result (σ i)) (s : (i : ι) → σ i) :
    Result ((i : ι) → σ i) :=
  names.foldlM (fun s i => do
    let x ← f i (s i)
    return Function.update s i x) s

theorem mapFamily_of_nodup {names : List ι} {f : (i : ι) → σ i → Result (σ i)} {s s' : (i : ι) → σ i}
    (hnodup : names.Nodup) (h : ∀ i ∈ names, f i (s i) = .ok (s' i)) :
    mapFamily names f s = .ok fun i => if i ∈ names then s' i else s i := by
  induction names generalizing s with
  | nil => rfl
  | cons i names ih =>
    obtain ⟨hi,hnodup⟩ := List.nodup_cons.mp hnodup
    have hrest : ∀ j ∈ names, f j (Function.update s i (s' i) j) = .ok (s' j) := by
      intro j hj
      have hne : j ≠ i := fun heq => hi (heq ▸ hj)
      rw [Function.update_of_ne hne]
      exact h j (List.mem_cons_of_mem i hj)
    have hfold := ih hnodup hrest
    rw [mapFamily] at hfold ⊢
    rw [List.foldlM_cons,h i List.mem_cons_self,Result.bind_of_ok,Result.pure_eq_ok,Result.bind_of_ok,
      hfold]
    congr 1
    funext j
    by_cases hj : j = i
    · subst hj
      simp [hi]
    · simp [hj]

theorem mapFamily_eq {names : List ι} {f : (i : ι) → σ i → Result (σ i)} {s s' : (i : ι) → σ i}
    (hnodup : names.Nodup) (hall : ∀ i, i ∈ names) (h : ∀ i, f i (s i) = .ok (s' i)) :
    mapFamily names f s = .ok s' := by
  rw [mapFamily_of_nodup hnodup fun i _ => h i]
  congr 1
  funext i
  exact if_pos (hall i)

end
end Tailnet
