import Tailnet.KvStore.TableSpec
import Tailnet.Lib.Index
import Tailnet.Lib.Run

/-! Indexes follow their table. Every call that writes to a row moves the index values of that row, so
an index stays exact as long as rows do not share values. A removal in a transaction is different: of a
row that is deleted already it finds the value in the main storage again. -/
namespace Tailnet.KvStore
open Function Image
namespace Image
variable {X K : Type} [DecidableEq X] {inTxn : Bool} {s : Image X K}

theorem Settled.remove (h : s.Settled inTxn) (x : X) : (s.remove inTxn x).Settled inTxn := by
  rcases h with h | h
  · exact .inl h
  · cases inTxn with
    | true => exact .inl rfl
    | false => exact .inr (by simpa [Image.remove,write] using h)

theorem view_foldl_remove (h : s.Settled inTxn) (xs : List X) :
    (xs.foldl (fun s x => s.remove inTxn x) s).view = dropValues s.view xs := by
  induction xs generalizing s with
  | nil =>
    funext x
    simp [dropValues]
  | cons x xs ih =>
    rw [List.foldl_cons,ih (h.remove x),view_remove h]
    funext y
    by_cases hy : y = x
    · subst hy
      simp [dropValues]
    · simp [dropValues,hy]

theorem view_foldl_insert (s : Image X K) (k : K) (xs : List X) :
    (xs.foldl (fun s x => s.insert inTxn x k) s).view = takeValues s.view k xs := by
  induction xs generalizing s with
  | nil =>
    funext x
    simp [takeValues]
  | cons x xs ih =>
    rw [List.foldl_cons,ih,view_insert]
    funext y
    by_cases hy : y = x
    · subst hy
      simp [takeValues]
    · simp [takeValues,hy]

end Image

namespace TableImage
variable {D : TableDesc} {inTxn : Bool} {s : TableImage D} {k : D.Key} {v : D.Value}

/-- The indexes lead exactly to the rows that have their values. -/
def Exact (s : TableImage D) : Prop := ∀ i, IndexOf (s.indexes i).view s.rows.view (D.values i)

/-- Rows do not share index values. -/
def Distinct (s : TableImage D) : Prop := ∀ i, Apart s.rows.view (D.values i)

structure Settled (inTxn : Bool) (s : TableImage D) : Prop where
  rows : s.rows.Settled inTxn
  indexes : ∀ i, (s.indexes i).Settled inTxn

/-- A removal finds a value that is not the one of a row, but has index values of one. -/
def Stale (inTxn : Bool) (k : D.Key) (s : TableImage D) : Prop :=
  s.rows.view k = none ∧ ∃ old, s.rows.removed inTxn k = some old ∧
    ∃ i, ∃ x ∈ D.values i old, ∃ k' v, s.rows.view k' = some v ∧ x ∈ D.values i v

theorem view_onRemove (h : s.Settled inTxn) (old : D.Value) (i : D.Index) :
    ((s.onRemove inTxn old).indexes i).view = dropValues (s.indexes i).view (D.values i old) :=
  view_foldl_remove (h.indexes i) _

theorem view_onInsert (s : TableImage D) (k : D.Key) (v : D.Value) (i : D.Index) :
    ((s.onInsert inTxn k v).indexes i).view = takeValues (s.indexes i).view k (D.values i v) :=
  view_foldl_insert _ k _

theorem Exact.replace (h : s.Exact) (hs : s.Settled inTxn) {old : D.Value}
    (hk : s.rows.view k = some old)
    (hdistinct : ∀ i, Apart (update s.rows.view k (some v)) (D.values i)) (i : D.Index) :
    IndexOf (((s.onRemove inTxn old).onInsert inTxn k v).indexes i).view
      (update s.rows.view k (some v)) (D.values i) := by
  have hremoved := (h i).remove hk
  have hinserted := hremoved.insert (k := k) (v := v) (by simp)
  rw [update_idem] at hinserted
  rw [view_onInsert,view_onRemove hs]
  exact hinserted (hdistinct i)

theorem Exact.insert (h : s.Exact) (hs : s.Settled inTxn) (hdistinct : (s.insert inTxn k v).Distinct) :
    (s.insert inTxn k v).Exact := by
  have hrows : (s.insert inTxn k v).rows.view = update s.rows.view k (some v) :=
    view_insert s.rows
  intro i
  have hapart := fun i => hrows ▸ hdistinct i
  rw [hrows]
  cases hk : s.rows.view k with
  | none =>
    have hindex : ((s.insert inTxn k v).indexes i).view =
        takeValues (s.indexes i).view k (D.values i v) := by
      simpa [TableImage.insert,hk] using view_onInsert s k v i
    rw [hindex]
    exact (h i).insert hk (hapart i)
  | some old => simpa [TableImage.insert,hk] using h.replace hs hk hapart i

theorem Exact.mutate (h : s.Exact) (hs : s.Settled inTxn) {f : D.Value → D.Value}
    (hdistinct : (s.mutate inTxn k f).Distinct) : (s.mutate inTxn k f).Exact := by
  cases hk : s.rows.view k with
  | none => simpa [TableImage.mutate,hk] using h
  | some old =>
    have hrows : (s.mutate inTxn k f).rows.view = update s.rows.view k (some (f old)) := by
      simp [TableImage.mutate,hk,view_mutate]
    intro i
    have hapart := fun i => hrows ▸ hdistinct i
    rw [hrows]
    simpa [TableImage.mutate,hk] using h.replace hs hk hapart i

theorem exact_clear (s : TableImage D) : (s.clear inTxn).Exact := by
  intro i
  simpa [TableImage.clear] using indexOf_empty (D.values i)

/-- A removal keeps the indexes exact, unless it finds the values of another row. -/
theorem Exact.remove_iff (h : s.Exact) (hs : s.Settled inTxn) :
    (s.remove inTxn k).Exact ↔ ¬ s.Stale inTxn k := by
  have hrows : (s.remove inTxn k).rows.view = update s.rows.view k none :=
    view_remove hs.rows
  cases hk : s.rows.view k with
  | some v =>
    have hold := removed_of_view hs.rows hk
    have hexact : (s.remove inTxn k).Exact := by
      intro i
      rw [hrows]
      simpa [TableImage.remove,hold,view_onRemove hs] using (h i).remove hk
    exact iff_of_true hexact fun hstale => by simp [Stale,hk] at hstale
  | none =>
    -- the rows stay as they are
    have hsame : (s.remove inTxn k).rows.view = s.rows.view := by
      rw [hrows,← hk,update_eq_self]
    cases hold : s.rows.removed inTxn k with
    | none =>
      have hexact : (s.remove inTxn k).Exact := by
        intro i
        rw [hsame]
        simpa [TableImage.remove,hold] using h i
      exact iff_of_true hexact fun hstale => by simp [Stale,hold] at hstale
    | some old =>
      have hindex : ∀ i, ((s.remove inTxn k).indexes i).view =
          dropValues (s.indexes i).view (D.values i old) := fun i => by
        simpa [TableImage.remove,hold] using view_onRemove hs old i
      constructor
      · rintro hexact ⟨-,old',hold',i,x,hx,k',v,hv,hxv⟩
        rw [hold] at hold'
        cases hold'
        -- the value leads to its row, but the index does not have it any more
        have hlead := (hexact i x k').mpr ⟨v,by rw [hsame,hv],hxv⟩
        rw [hindex i,dropValues,if_pos hx] at hlead
        cases hlead
      · intro hfresh i
        have hfree : ∀ x ∈ D.values i old, ∀ k v, s.rows.view k = some v → x ∉ D.values i v :=
          fun x hx k' v hv hxv => hfresh ⟨hk,old,hold,i,x,hx,k',v,hv,hxv⟩
        rw [hsame,hindex i,(h i).dropValues_eq hfree]
        exact h i

theorem not_stale_of_quiet (hs : s.Settled false) : ¬ s.Stale false k := by
  rintro ⟨hk,old,hold,-⟩
  rw [removed_of_quiet hs.rows,hk] at hold
  cases hold

theorem Exact.commit (h : s.Exact) : s.commit.Exact := h

end TableImage
end Tailnet.KvStore
