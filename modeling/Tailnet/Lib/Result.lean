import Mathlib

/-! Computations that may panic. A value of `Result α` is a returned value or
the panic that stopped the computation; the state of a panicked call is gone. -/
namespace Tailnet

/-- The ways in which a call stops without returning. -/
inductive Panic
  | unwrapNone
  | unreachable
  | assertion
  | indexOutOfBounds
  | overflow
  | capacity
  | message (text : String)
  /-- an unwrap of nothing, in a function -/
  | unwrapNoneIn (function : String)
  /-- a loop that does not end -/
  | divergence
  deriving DecidableEq, Repr

abbrev Result (α : Type) := Except Panic α

namespace Result

/-- `Option::unwrap`. -/
def unwrap {α : Type} : Option α → Result α
  | some a => .ok a
  | none => .error .unwrapNone

/-- `Option::unwrap` in a function that other functions rely on not to panic. -/
def unwrapIn {α : Type} (function : String) : Option α → Result α
  | some a => .ok a
  | none => .error (.unwrapNoneIn function)

def index {α : Type} (xs : List α) (i : ℕ) : Result α :=
  match xs[i]? with
  | some a => .ok a
  | none => .error .indexOutOfBounds

/-- The slice from an index on. -/
def sliceFrom {α : Type} (xs : List α) (n : ℕ) : Result (List α) :=
  if n ≤ xs.length then .ok (xs.drop n) else .error .indexOutOfBounds

def splitAt {α : Type} (xs : List α) (n : ℕ) : Result (List α × List α) :=
  if n ≤ xs.length then .ok (xs.take n,xs.drop n) else .error .indexOutOfBounds

def sub (a b : ℕ) : Result ℕ := if b ≤ a then .ok (a - b) else .error .overflow

def assert (b : Bool) : Result Unit :=
  if b then .ok () else .error .assertion

section
variable {α β : Type}

@[simp] theorem bind_of_ok (a : α) (f : α → Result β) : (Except.ok a >>= f) = f a := rfl

@[simp] theorem bind_of_error (p : Panic) (f : α → Result β) :
    (Except.error p >>= f) = .error p := rfl

@[simp] theorem pure_eq_ok (a : α) : (pure a : Result α) = .ok a := rfl

@[simp] theorem throw_eq_error (p : Panic) : (throw p : Result α) = .error p := rfl

@[simp] theorem map_of_ok (f : α → β) (a : α) :
    (f <$> (Except.ok a : Result α)) = .ok (f a) := rfl

@[simp] theorem unwrap_some (a : α) : unwrap (some a) = .ok a := rfl
@[simp] theorem unwrap_none : unwrap (none : Option α) = .error .unwrapNone := rfl

theorem unwrap_eq_ok {o : Option α} {a : α} : unwrap o = .ok a ↔ o = some a := by
  cases o with
  | none => simp
  | some b => simp

@[simp] theorem assert_true : assert true = .ok () := rfl

variable {xs : List α}

theorem index_of_getElem? {i : ℕ} {a : α} (h : xs[i]? = some a) : index xs i = .ok a := by
  simp [index,h]

theorem sliceFrom_of_le {n : ℕ} (h : n ≤ xs.length) : sliceFrom xs n = .ok (xs.drop n) :=
  if_pos h

theorem splitAt_of_le {n : ℕ} (h : n ≤ xs.length) : splitAt xs n = .ok (xs.take n,xs.drop n) :=
  if_pos h

theorem sub_of_le {a b : ℕ} (h : b ≤ a) : sub a b = .ok (a - b) := if_pos h

variable {x : Result α}

/-- A computation that returned did so through each of its steps. -/
theorem bind_eq_ok {f : α → Result β} {b : β} :
    (x >>= f) = .ok b ↔ ∃ a, x = .ok a ∧ f a = .ok b := by
  cases x with
  | error p => simp
  | ok a => simp

theorem exists_ok_of_any {P : α → Prop} [DecidablePred P]
    (h : x.toOption.any (fun a => decide (P a)) = true) : ∃ a, x = .ok a ∧ P a := by
  cases x with
  | error p => cases h
  | ok a => exact ⟨a,rfl,of_decide_eq_true h⟩

theorem eq_ok_of_toOption {a : α} (h : x.toOption = some a) : x = .ok a := by
  cases x with
  | error p => cases h
  | ok b =>
    cases h
    rfl

theorem not_exists_ok (p : Panic) : ¬ ∃ a : α, (Except.error p : Result α) = .ok a := by
  simp

def panic : Result α → Option Panic
  | .ok _ => none
  | .error p => some p

theorem eq_error_of_panic {p : Panic} (h : panic x = some p) : x = .error p := by
  cases x with
  | ok a => cases h
  | error q =>
    cases h
    rfl

theorem exists_ok_of_panic (h : panic x = none) : ∃ a, x = .ok a := by
  cases x with
  | ok a => exact ⟨a,rfl⟩
  | error q => cases h

theorem assert_eq_error {b : Bool} {p : Panic} (h : assert b = .error p) : p = .assertion := by
  cases b with
  | false =>
    cases h
    rfl
  | true => cases h

/-- A computation that stopped did so in one of its steps. -/
theorem bind_eq_error {f : α → Result β} {p : Panic} :
    (x >>= f) = .error p ↔ x = .error p ∨ ∃ a, x = .ok a ∧ f a = .error p := by
  cases x with
  | error q => simp
  | ok a => simp

/-- What every step of a loop keeps holds after it. -/
theorem foldlM_keeps {f : β → α → Result β} {P : β → Prop} {b b' : β}
    (hstep : ∀ b a b', P b → f b a = .ok b' → P b') (hb : P b) (h : xs.foldlM f b = .ok b') : P b' := by
  induction xs generalizing b with
  | nil =>
    cases h
    exact hb
  | cons a xs ih =>
    rw [List.foldlM_cons,bind_eq_ok] at h
    obtain ⟨b1,hb1,hrest⟩ := h
    exact ih (hstep b a b1 hb hb1) hrest

end
end Result
end Tailnet
