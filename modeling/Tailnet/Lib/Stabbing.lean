import Mathlib

/-! Points that stab intervals. The greedy choice stabs at the least end of an interval that is
not stabbed yet, and goes on with the intervals that start later; no smaller number of points
stabs all intervals. -/
namespace Tailnet
open List

section
variable {α ι : Type} [LinearOrder α] (start stop : ι → α)

/-- Some of the points lies in the interval. -/
def Stabbed (points : List α) (i : ι) : Prop := ∃ t ∈ points, start i ≤ t ∧ t ≤ stop i

/-- The points that the greedy choice makes, for the intervals that are left. -/
inductive GreedyStabs : List ι → List α → Prop
  | nil : GreedyStabs [] []
  | cons {items : List ι} {points : List α} {first : ι} (mem : first ∈ items)
    (least : ∀ i ∈ items, stop first ≤ stop i)
    (rest : GreedyStabs (items.filter fun i => stop first < start i) points) :
    GreedyStabs items (stop first::points)

variable {start stop} {items : List ι} {points : List α}

/-- Intervals that lie one after the other need a point each. -/
theorem length_le_of_separated {picks : List ι} {points : List α}
    (hsep : picks.Pairwise fun i j => stop i < start j)
    (hstab : ∀ i ∈ picks, Stabbed start stop points i) : picks.length ≤ points.length := by
  induction picks generalizing points with
  | nil => exact Nat.zero_le _
  | cons i picks ih =>
    obtain ⟨hhead,htail⟩ := pairwise_cons.mp hsep
    obtain ⟨t,ht,_,hle⟩ := hstab i mem_cons_self
    -- the point of the first interval comes before all the others
    have hothers : ∀ j ∈ picks, Stabbed start stop (points.erase t) j := by
      intro j hj
      obtain ⟨u,hu,hin⟩ := hstab j (mem_cons_of_mem i hj)
      have hne : u ≠ t := (hle.trans_lt ((hhead j hj).trans_le hin.1)).ne'
      exact ⟨u,(mem_erase_of_ne hne).mpr hu,hin⟩
    have hlen := ih htail hothers
    rw [length_erase_of_mem ht] at hlen
    have hpos := length_pos_of_mem ht
    rw [length_cons]
    omega

/-- The intervals whose ends are chosen lie one after the other. -/
theorem GreedyStabs.separated (h : GreedyStabs start stop items points) :
    ∃ picks : List ι, picks.length = points.length ∧ (∀ i ∈ picks, i ∈ items) ∧
      picks.Pairwise fun i j => stop i < start j := by
  induction h with
  | nil => exact ⟨[],rfl,fun i hi => hi,List.Pairwise.nil⟩
  | cons mem least rest ih =>
    rename_i items points first
    obtain ⟨picks,hlen,hmem,hsep⟩ := ih
    refine ⟨first::picks,congrArg (· + 1) hlen,?_,pairwise_cons.mpr ⟨?_,hsep⟩⟩
    · intro i hi
      rcases mem_cons.mp hi with rfl | hi
      · exact mem
      · exact (mem_filter.mp (hmem i hi)).1
    · intro i hi
      simpa using (mem_filter.mp (hmem i hi)).2

/-- The greedy choice makes the smallest number of points. -/
theorem GreedyStabs.minimal (h : GreedyStabs start stop items points) {points' : List α}
    (hstab : ∀ i ∈ items, Stabbed start stop points' i) : points.length ≤ points'.length := by
  obtain ⟨picks,hlen,hmem,hsep⟩ := h.separated
  rw [← hlen]
  exact length_le_of_separated hsep fun i hi => hstab i (hmem i hi)

end
end Tailnet
