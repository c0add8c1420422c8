import Mathlib

/-! Reference-counted cells. A cell keeps its value as long as there are strong references;
weak references keep only its counts. Its value can be changed in place, or moved out, only
by the holder of the last reference. -/
namespace Tailnet

structure Cell (α : Type) where
  value : Option α
  strong : ℕ
  weak : ℕ

/-- Cells by their address. Addresses are not used again. -/
structure Refs (α : Type) where
  cells : ℕ → Cell α
  fresh : ℕ

namespace Refs
variable {α : Type}

def empty : Refs α := ⟨fun _ => ⟨none,0,0⟩,0⟩

variable (r : Refs α)

def alloc (v : α) : ℕ × Refs α :=
  (r.fresh,⟨Function.update r.cells r.fresh ⟨some v,1,0⟩,r.fresh+1⟩)

def onCell (a : ℕ) (f : Cell α → Cell α) : Refs α :=
  { r with cells := Function.update r.cells a (f (r.cells a)) }

/-- A weak reference from a strong one. -/
def downgrade (a : ℕ) : Refs α := r.onCell a fun c => { c with weak := c.weak+1 }

/-- A strong reference from a weak one, as long as there is another. -/
def upgrade (a : ℕ) : Option (Refs α) :=
  if (r.cells a).strong = 0 then none
  else some (r.onCell a fun c => { c with strong := c.strong+1 })

def dropWeak (a : ℕ) : Refs α := r.onCell a fun c => { c with weak := c.weak-1 }

/-- The value goes with the last strong reference. -/
def dropStrong (a : ℕ) : Refs α := r.onCell a fun c =>
  { c with strong := c.strong-1, value := if c.strong ≤ 1 then none else c.value }

def dropAll (r : Refs α) : List ℕ → Refs α
  | [] => r
  | a::as => (r.dropStrong a).dropAll as

/-- The value, for the holder of the only reference. -/
def getMut (a : ℕ) : Option α :=
  if (r.cells a).strong = 1 ∧ (r.cells a).weak = 0 then (r.cells a).value else none

def set (a : ℕ) (v : α) : Refs α := r.onCell a fun c => { c with value := some v }

/-- Give up a strong reference, for the value if it was the last. -/
def intoInner (a : ℕ) : Option α × Refs α :=
  (if (r.cells a).strong = 1 then (r.cells a).value else none,r.dropStrong a)

theorem onCell_cells (a b : ℕ) (f : Cell α → Cell α) :
    (r.onCell a f).cells b = if b = a then f (r.cells a) else r.cells b :=
  Function.update_apply r.cells a _ b

@[simp] theorem onCell_fresh (a : ℕ) (f : Cell α → Cell α) :
    (r.onCell a f).fresh = r.fresh := rfl

theorem onCell_onCell (a : ℕ) (f g : Cell α → Cell α) :
    (r.onCell a f).onCell a g = r.onCell a fun c => g (f c) := by
  simp [onCell]

def clone (a : ℕ) : Refs α := r.onCell a fun c => { c with strong := c.strong+1 }

theorem clone_dropWeak (a : ℕ) :
    (r.clone a).dropWeak a = r.onCell a fun c => { c with strong := c.strong+1, weak := c.weak-1 } :=
  onCell_onCell r a _ _

theorem upgrade_of_strong {r : Refs α} {a : ℕ} (h : (r.cells a).strong ≠ 0) :
    r.upgrade a = some (r.clone a) := if_neg h

theorem upgrade_of_not_strong {r : Refs α} {a : ℕ} (h : (r.cells a).strong = 0) :
    r.upgrade a = none := if_pos h

@[simp] theorem dropAll_fresh (as : List ℕ) : (r.dropAll as).fresh = r.fresh := by
  induction as generalizing r with
  | nil => rfl
  | cons a as ih => rw [dropAll,ih]; rfl

theorem dropAll_cells {as : List ℕ} (h : as.Nodup) (r : Refs α) (b : ℕ) :
    (r.dropAll as).cells b = if b ∈ as then (r.dropStrong b).cells b else r.cells b := by
  induction as generalizing r with
  | nil => rfl
  | cons a as ih =>
    obtain ⟨hnot,hrest⟩ := List.nodup_cons.mp h
    rw [dropAll,ih hrest]
    by_cases hb : b = a
    · subst hb
      simp [hnot]
    · simp [hb,dropStrong,onCell_cells]

end Refs
end Tailnet
