import Tailnet.Lib.Result

/-! Values with two versions. One slot holds the committed version, the other one is empty, or
holds an older version or the version of the transaction in progress. -/
namespace Tailnet.KvStore

abbrev TxnId := ℕ

/-- The contents of the two slots. Both never hold a version of one transaction. -/
inductive VersionedValue (T : Type)
  | empty
  | a (x : TxnId × T)
  | b (y : TxnId × T)
  | ab (x y : TxnId × T) (distinct : x.1 ≠ y.1)

namespace VersionedValue
variable {T : Type}

def new (t : T) (id : TxnId) : VersionedValue T := a (id,t)

def gcTxn (txn : TxnId) : VersionedValue T → VersionedValue T
  | empty => empty
  | a x => if x.1 = txn then empty else a x
  | b y => if y.1 = txn then empty else b y
  | ab x y h => if x.1 = txn then b y else if y.1 = txn then a x else ab x y h

def isEmpty : VersionedValue T → Bool
  | empty => true
  | _ => false

/-- What is left without the version of a transaction, if anything. -/
def collect (txn : TxnId) (v : VersionedValue T) : Option (VersionedValue T) :=
  if (v.gcTxn txn).isEmpty then none else some (v.gcTxn txn)

/-- Clone the newest version into the other slot for a transaction, if it has none yet. -/
def internalClone (txn : TxnId) : VersionedValue T → Result (Option T × VersionedValue T)
  | empty => .ok (none,empty)
  | a x =>
    if h : txn = x.1 then .ok (some x.2,a x)
    else .ok (some x.2,ab x (txn,x.2) (Ne.symm h))
  | b y =>
    if h : txn = y.1 then .ok (some y.2,b y)
    else .ok (some y.2,ab (txn,y.2) y h)
  | ab x y distinct =>
    if hx : txn = x.1 then .ok (some x.2,ab x y distinct)
    else if hy : txn = y.1 then .ok (some y.2,ab x y distinct)
    else if x.1 > y.1 then do
      Result.assert (txn > x.1 ∧ txn > y.1)
      return (some x.2,ab x (txn,x.2) (Ne.symm hx))
    else do
      Result.assert (txn > x.1 ∧ txn > y.1)
      return (some y.2,ab (txn,y.2) y hy)

/-- The newest version that a transaction sees. -/
def get (id : TxnId) : VersionedValue T → Option T
  | empty => none
  | a x => if id ≥ x.1 then some x.2 else none
  | b y => if id ≥ y.1 then some y.2 else none
  | ab x y _ =>
    if id ≥ x.1 then
      if id ≥ y.1 then if x.1 > y.1 then some x.2 else some y.2
      else some x.2
    else if id ≥ y.1 then some y.2
    else none

/-- Write to the version that `get` returns. -/
def getMut (id : TxnId) (f : T → T) : VersionedValue T → VersionedValue T
  | empty => empty
  | a x => if id ≥ x.1 then a (x.1,f x.2) else a x
  | b y => if id ≥ y.1 then b (y.1,f y.2) else b y
  | ab x y h =>
    if id ≥ x.1 then
      if id ≥ y.1 then if x.1 > y.1 then ab (x.1,f x.2) y h else ab x (y.1,f y.2) h
      else ab (x.1,f x.2) y h
    else if id ≥ y.1 then ab x (y.1,f y.2) h
    else ab x y h

/-- Take the version that `get` returns out of its slot. -/
def take (id : TxnId) : VersionedValue T → Option T × VersionedValue T
  | empty => (none,empty)
  | a x => if id ≥ x.1 then (some x.2,empty) else (none,a x)
  | b y => if id ≥ y.1 then (some y.2,empty) else (none,b y)
  | ab x y h =>
    if id ≥ x.1 ∧ id ≥ y.1 then if x.1 > y.1 then (some x.2,b y) else (some y.2,a x)
    else if id ≥ x.1 then (some x.2,b y)
    else if id ≥ y.1 then (some y.2,a x)
    else (none,ab x y h)

def set (value : T) (id : TxnId) : VersionedValue T → VersionedValue T
  | empty => a (id,value)
  -- a version of the current transaction is overwritten
  | a x => if h : id = x.1 then a (id,value) else ab x (id,value) (Ne.symm h)
  | b y => if h : id = y.1 then b (id,value) else ab (id,value) y h
  | ab x y distinct =>
    if hx : id = x.1 then ab (id,value) y (hx ▸ distinct)
    else if hy : id = y.1 then ab x (id,value) (hy ▸ distinct)
    -- or the older one of two committed versions
    else if x.1 > y.1 then ab x (id,value) (Ne.symm hx)
    else ab (id,value) y hy

def ids : VersionedValue T → List TxnId
  | empty => []
  | a x => [x.1]
  | b y => [y.1]
  | ab x y _ => [x.1,y.1]

/-- All versions are committed or of the transaction `txn`. -/
def Within (committed txn : TxnId) (v : VersionedValue T) : Prop := ∀ i ∈ v.ids, i ≤ committed ∨ i = txn

section
variable {v : VersionedValue T} {c t : TxnId} {x y : T}

@[simp, grind =] theorem within_a {x : TxnId × T} : (a x).Within c t ↔ x.1 ≤ c ∨ x.1 = t := by
  simp [Within,ids]

@[simp, grind =] theorem within_b {y : TxnId × T} : (b y).Within c t ↔ y.1 ≤ c ∨ y.1 = t := by
  simp [Within,ids]

@[simp, grind =] theorem within_ab {x y : TxnId × T} {h : x.1 ≠ y.1} :
    (ab x y h).Within c t ↔ (x.1 ≤ c ∨ x.1 = t) ∧ (y.1 ≤ c ∨ y.1 = t) := by
  simp [Within,ids]

@[simp, grind .] theorem within_empty : (empty : VersionedValue T).Within c t := by
  simp [Within,ids]

theorem within_new (x : T) : (new x t).Within c t := by
  simp [new]

theorem Within.mono (h : v.Within c c) {c' t' : TxnId} (hc : c ≤ c') : v.Within c' t' :=
  fun i hi => .inl (((h i hi).elim id fun heq => heq.le).trans hc)

theorem Within.committed (h : v.Within c t) (hct : c ≤ t) : v.Within t t :=
  fun i hi => .inl ((h i hi).elim (fun hle => hle.trans hct) fun heq => heq.le)

@[simp] theorem get_new : (new x t).get t = some x := by
  simp [new,get]

@[simp] theorem getMut_new (f : T → T) : (new x t).getMut t f = new (f x) t := by
  simp [new,getMut]

theorem take_fst (v : VersionedValue T) (id : TxnId) : (v.take id).1 = v.get id := by
  cases v <;> grind [take,get]

/-- A value with a version has one that a transaction sees, if all are committed or its own. -/
theorem Within.get_isSome (h : v.Within c t) (hct : c ≤ t) (hne : v.isEmpty = false) :
    (v.get t).isSome = true := by
  cases v <;> grind [get,isEmpty]

theorem isEmpty_of_get (h : v.get t = some x) : v.isEmpty = false := by
  cases v <;> grind [get,isEmpty]

/-- Versions that are all committed look the same to later transactions. -/
theorem Within.get_eq (h : v.Within c c) {t : TxnId} (hct : c ≤ t) : v.get t = v.get c := by
  cases v <;> grind [get]

theorem Within.set (h : v.Within c t) (x : T) : (v.set x t).Within c t := by
  cases v <;> grind [VersionedValue.set]

theorem isEmpty_set (v : VersionedValue T) (x : T) (t : TxnId) : (v.set x t).isEmpty = false := by
  cases v <;> grind [VersionedValue.set,isEmpty]

theorem Within.get_set (h : v.Within c t) (x : T) : (v.set x t).get t = some x := by
  cases v <;> grind [VersionedValue.set,get]

/-- A transaction does not write to the committed version. -/
theorem Within.get_set_committed (h : v.Within c t) (hct : c < t) (x : T) :
    (v.set x t).get c = v.get c := by
  cases v <;> grind [VersionedValue.set,get]

theorem Within.gcTxn (h : v.Within c t) : (v.gcTxn t).Within c c := by
  cases v <;> grind [VersionedValue.gcTxn]

theorem Within.get_gcTxn (h : v.Within c t) (hct : c < t) : (v.gcTxn t).get c = v.get c := by
  cases v <;> grind [VersionedValue.gcTxn,get]

theorem collect_eq_some {w : VersionedValue T} :
    v.collect t = some w ↔ w = v.gcTxn t ∧ w.isEmpty = false := by
  rw [collect]
  split
  · rename_i h
    simp only [reduceCtorEq,false_iff,not_and]
    rintro rfl
    simp [h]
  · rename_i h
    simp only [Option.some.injEq]
    constructor
    · rintro rfl
      exact ⟨rfl,by simpa using h⟩
    · rintro ⟨rfl,-⟩
      rfl

theorem collect_collect (v w : VersionedValue T) (h : v.collect t = some w) : w.collect t = some w := by
  rw [collect_eq_some] at h ⊢
  obtain ⟨rfl,hne⟩ := h
  refine ⟨?_,hne⟩
  cases v <;> grind [gcTxn]

theorem Within.get_collect (h : v.Within c t) (hct : c < t) :
    ((v.collect t).bind fun w => w.get c) = v.get c := by
  rw [collect]
  split
  · rename_i hempty
    cases hv : v.get c with
    | none => rfl
    | some x =>
      have hne := isEmpty_of_get ((h.get_gcTxn hct).trans hv)
      rw [hempty] at hne
      cases hne
  · exact h.get_gcTxn hct

/-- Without a version of the transaction, all versions are committed. -/
theorem Within.of_notMem (h : v.Within c t) (hno : t ∉ v.ids) : v.Within c c :=
  fun i hi => (h i hi).elim .inl fun heq => absurd (heq ▸ hi) hno

/-- Cloning gives the transaction a version of its own, with what it has seen so far. -/
theorem Within.internalClone (h : v.Within c t) (hct : c ≤ t) (hne : v.isEmpty = false) :
    ∃ x v', v.internalClone t = .ok (some x,v') ∧ v.get t = some x ∧ v'.get t = some x ∧
      v'.Within c t ∧ v'.isEmpty = false ∧ (c < t → v'.get c = v.get c) := by
  cases v with
  | empty => cases hne
  | a x =>
    have hx := within_a.mp h
    by_cases heq : t = x.1
    · refine ⟨x.2,a x,by simp [VersionedValue.internalClone,heq],?_⟩
      grind [get,isEmpty]
    · refine ⟨x.2,ab x (t,x.2) (Ne.symm heq),by simp [VersionedValue.internalClone,heq],?_⟩
      grind [get,isEmpty]
  | b y =>
    have hy := within_b.mp h
    by_cases heq : t = y.1
    · refine ⟨y.2,b y,by simp [VersionedValue.internalClone,heq],?_⟩
      grind [get,isEmpty]
    · refine ⟨y.2,ab (t,y.2) y heq,by simp [VersionedValue.internalClone,heq],?_⟩
      grind [get,isEmpty]
  | ab x y hxy =>
    have hwithin := within_ab.mp h
    by_cases htx : t = x.1
    · refine ⟨x.2,ab x y hxy,by simp [VersionedValue.internalClone,htx],?_⟩
      grind [get,isEmpty]
    · by_cases hty : t = y.1
      · refine ⟨y.2,ab x y hxy,by simp [VersionedValue.internalClone,hty,Ne.symm hxy],?_⟩
        grind [get,isEmpty]
      · -- both versions are older than the transaction
        have hlt : t > x.1 ∧ t > y.1 := by grind
        by_cases hgt : x.1 > y.1
        · refine ⟨x.2,ab x (t,x.2) (Ne.symm htx),
            by simp [VersionedValue.internalClone,htx,hty,hgt,hlt],?_⟩
          grind [get,isEmpty]
        · refine ⟨y.2,ab (t,y.2) y hty,by simp [VersionedValue.internalClone,htx,hty,hgt,hlt],?_⟩
          grind [get,isEmpty]

end
end VersionedValue
end Tailnet.KvStore
