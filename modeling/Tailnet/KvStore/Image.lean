import Mathlib

/-! What a table shows to a transaction, without versions: the committed rows, the rows of the main
storage with what the transaction has written, and the rows it has deleted. -/
namespace Tailnet.KvStore
open Function

inductive Mask (K V : Type)
  | none
  | all (present : K → Option V)
  | some (removed : Finset K)

structure Image (K V : Type) where
  /-- the committed rows -/
  base : K → Option V
  /-- the rows of the main storage -/
  seen : K → Option V
  mask : Mask K V

namespace Image
variable {K V : Type}

/-- Committed rows, with no transaction in progress. -/
def quiet (rows : K → Option V) : Image K V := ⟨rows,rows,.none⟩

def clear (inTxn : Bool) (s : Image K V) : Image K V :=
  if inTxn then { s with mask := .all fun _ => none } else quiet fun _ => none

def gc (s : Image K V) : Image K V := quiet s.base

variable [DecidableEq K]

/-- The rows that the transaction sees. -/
def view (s : Image K V) (k : K) : Option V :=
  match s.mask with
  | .none => s.seen k
  | .all present => present k
  | .some removed => if k ∈ removed then none else s.seen k

/-- The rows that an iteration for writing goes over. -/
def stored (s : Image K V) (k : K) : Option V :=
  match s.mask with
  | .all present => present k
  | _ => s.seen k

/-- Write to the main storage. -/
def write (inTxn : Bool) (k : K) (o : Option V) (s : Image K V) : Image K V :=
  { s with
    base := if inTxn then s.base else update s.base k o
    seen := update s.seen k o }

/-- Write to a row that the transaction sees. -/
def set (inTxn : Bool) (k : K) (v : V) (s : Image K V) : Image K V :=
  match s.mask with
  | .all present => { s with mask := .all (update present k (some v)) }
  | _ => s.write inTxn k (some v)

/-- Change a row, if the transaction sees it. -/
def mutate (inTxn : Bool) (k : K) (f : V → V) (s : Image K V) : Image K V :=
  match s.view k with
  | none => s
  | some v => s.set inTxn k (f v)

def insert (inTxn : Bool) (k : K) (v : V) (s : Image K V) : Image K V :=
  match s.mask with
  | .some removed => { s.write inTxn k (some v) with mask := .some (removed.erase k) }
  | _ => s.set inTxn k v

def remove (inTxn : Bool) (k : K) (s : Image K V) : Image K V :=
  if inTxn then
    match s.mask with
    | .none => if (s.seen k).isSome then { s with mask := .some {k} } else s
    | .all present => { s with mask := .all (update present k none) }
    | .some removed =>
      if (s.seen k).isSome then { s with mask := .some (Insert.insert k removed) } else s
  else s.write false k none

/-- The row that is given to the indexes when a key is removed. -/
def removed (inTxn : Bool) (k : K) (s : Image K V) : Option V :=
  match s.mask with
  | .all present => if inTxn then (present k).or (s.seen k) else s.seen k
  | _ => s.seen k

def commit (s : Image K V) : Image K V := quiet s.view

variable {inTxn : Bool} {s : Image K V} {k : K} {v : V}

@[simp] theorem view_quiet (rows : K → Option V) : (quiet rows).view = rows := rfl

@[simp] theorem view_commit (s : Image K V) : s.commit.view = s.view := rfl

@[simp] theorem view_gc (s : Image K V) : s.gc.view = s.base := rfl

@[simp] theorem view_clear (s : Image K V) : (s.clear inTxn).view = fun _ => none := by
  cases inTxn <;> rfl

theorem isSome_stored (h : (s.view k).isSome = true) : (s.stored k).isSome = true := by
  obtain ⟨base,seen,mask⟩ := s
  cases mask with
  | none => exact h
  | all present => exact h
  | some removed =>
    by_cases hk : k ∈ removed
    · simp [view,hk] at h
    · simpa [view,stored,hk] using h

theorem view_set (h : (s.view k).isSome = true) :
    (s.set inTxn k v).view = update s.view k (some v) := by
  obtain ⟨base,seen,mask⟩ := s
  funext k'
  cases mask with
  | none => rfl
  | all present => rfl
  | some removed =>
    have hk : k ∉ removed := fun hmem => by simp [view,hmem] at h
    by_cases hk' : k' = k
    · subst hk'
      simp [view,set,write,hk]
    · simp [view,set,write,hk']

theorem mutate_of_none (h : s.view k = none) (f : V → V) : s.mutate inTxn k f = s := by
  simp [mutate,h]

theorem view_mutate (s : Image K V) (f : V → V) :
    (s.mutate inTxn k f).view = update s.view k ((s.view k).map f) := by
  cases hv : s.view k with
  | none =>
    rw [mutate_of_none hv,Option.map_none,← hv,update_eq_self]
  | some v =>
    have hsome : (s.view k).isSome = true := by simp [hv]
    simpa [mutate,hv] using view_set (v := f v) hsome

theorem view_insert (s : Image K V) :
    (s.insert inTxn k v).view = update s.view k (some v) := by
  obtain ⟨base,seen,mask⟩ := s
  funext k'
  cases mask with
  | none => rfl
  | all present => rfl
  | some removed =>
    by_cases hk' : k' = k
    · subst hk'
      simp [view,insert,write]
    · simp [view,insert,write,hk']

/-- Outside of a transaction there is no mask. -/
def Settled (inTxn : Bool) (s : Image K V) : Prop := inTxn = true ∨ s.mask = .none

theorem view_remove (h : s.Settled inTxn) :
    (s.remove inTxn k).view = update s.view k none := by
  obtain ⟨base,seen,mask⟩ := s
  funext k'
  cases inTxn with
  | false =>
    have hmask : mask = .none := h.resolve_left Bool.false_ne_true
    subst hmask
    rfl
  | true =>
    cases mask with
    | all present => rfl
    | none => by_cases hk' : k' = k <;> cases hs : seen k <;> simp_all [view,remove]
    | some removed => by_cases hk' : k' = k <;> cases hs : seen k <;> simp_all [view,remove]

/-- A removal in a transaction writes nothing to the main storage. -/
theorem remove_eq_mask (s : Image K V) (k : K) :
    s.remove true k = { s with mask := (s.remove true k).mask } := by
  obtain ⟨base,seen,mask⟩ := s
  cases mask <;> cases hs : seen k <;> simp [remove,hs]

theorem removed_of_view (h : s.Settled inTxn) (hv : s.view k = some v) : s.removed inTxn k = some v := by
  obtain ⟨base,seen,mask⟩ := s
  cases mask with
  | none => exact hv
  | all present =>
    have htxn : inTxn = true := h.resolve_right (by simp)
    have hp : present k = some v := hv
    simp [removed,htxn,hp]
  | some rows =>
    by_cases hk : k ∈ rows
    · simp [view,hk] at hv
    · simpa [view,removed,hk] using hv

theorem removed_of_quiet (h : s.Settled false) : s.removed false k = s.view k := by
  obtain ⟨base,seen,mask⟩ := s
  have hmask : mask = .none := h.resolve_left Bool.false_ne_true
  subst hmask
  rfl

/-- Of a row that is gone, a removal in a transaction finds what the main storage has. -/
theorem removed_of_none (h : s.view k = none) : s.removed true k = s.seen k := by
  obtain ⟨base,seen,mask⟩ := s
  cases mask with
  | none => rfl
  | all present =>
    have hp : present k = none := h
    simp [removed,hp]
  | some rows => rfl

theorem base_set (s : Image K V) (k : K) (v : V) : (s.set true k v).base = s.base := by
  obtain ⟨base,seen,mask⟩ := s
  cases mask <;> rfl

theorem base_mutate (s : Image K V) (k : K) (f : V → V) : (s.mutate true k f).base = s.base := by
  cases hv : s.view k with
  | none => rw [mutate_of_none hv]
  | some v => simpa [mutate,hv] using base_set s k (f v)

theorem base_insert (s : Image K V) (k : K) (v : V) : (s.insert true k v).base = s.base := by
  obtain ⟨base,seen,mask⟩ := s
  cases mask <;> rfl

theorem base_remove (s : Image K V) (k : K) : (s.remove true k).base = s.base := by
  rw [remove_eq_mask]

omit [DecidableEq K] in
theorem base_foldl {α : Type} {step : Image K V → α → Image K V}
    (h : ∀ s a, (step s a).base = s.base) (l : List α) (s : Image K V) :
    (l.foldl step s).base = s.base := by
  induction l generalizing s with
  | nil => rfl
  | cons a l ih => rw [List.foldl_cons,ih,h]

end Image
end Tailnet.KvStore
