import Tailnet.KvStore.Versioned
import Tailnet.Lib.Assoc

/-! The rows of a table with the state that a transaction keeps beside them: the rows it has
deleted, and the keys of the rows it has written. -/
namespace Tailnet.KvStore

inductive DeleteMask (K V : Type)
  | none
  /-- all rows are deleted; these are new -/
  | all (txn : TxnId) (present : Assoc K (VersionedValue V))
  /-- some rows are deleted -/
  | some (txn : TxnId) (removed : Finset K)

/-- The status of a row in the mask. -/
inductive MaskStatus (V : Type)
  | unknown
  | removed
  | overwritten (v : V)

/-- What a write to the mask did. -/
inductive MaskInsertResult (V : Type)
  | notWritten
  | written (previous : Option V)

namespace DeleteMask
variable {K V : Type}

def checkTxnId (txn : TxnId) : DeleteMask K V → Bool
  | none => true
  | all id _ => id = txn
  | some id _ => id = txn

def clear (txn : TxnId) (m : DeleteMask K V) : Result (DeleteMask K V) := do
  Result.assert (m.checkTxnId txn)
  return all txn .empty

variable [DecidableEq K]

def remove (k : K) (txn : TxnId) (data : Assoc K (VersionedValue V)) (m : DeleteMask K V) :
    Result (Option V × DeleteMask K V) := do
  Result.assert (m.checkTxnId txn)
  -- only a row that is there is recorded
  let present := ((data.get k).bind fun v => v.get txn).isSome
  match m with
  | none => return (.none,if present then some txn {k} else none)
  | all id rows => return ((rows.get k).bind fun v => (v.take txn).1,all id (rows.erase k))
  | some id removed => return (.none,some id (if present then insert k removed else removed))

def get (k : K) (txn : TxnId) (m : DeleteMask K V) : Result (MaskStatus V) := do
  Result.assert (m.checkTxnId txn)
  match m with
  | none => return .unknown
  | all id rows =>
    if id = txn then
      match rows.get k with
      | .some v =>
        match v.get txn with
        | .some v => return .overwritten v
        | .none => return .unknown
      | .none => return .removed
    else return .unknown
  | some id removed =>
    if id = txn then return if k ∈ removed then .removed else .unknown else return .unknown

def insert (k : K) (v : V) (txn : TxnId) (m : DeleteMask K V) :
    Result (MaskInsertResult V × DeleteMask K V) := do
  Result.assert (m.checkTxnId txn)
  match m with
  | none => return (.notWritten,none)
  | all id rows =>
    return (.written ((rows.get k).bind fun v => (v.take txn).1),all id (rows.insert k (.new v txn)))
  | some id removed => return (.notWritten,some id (removed.erase k))

end DeleteMask

/-- The keys that a transaction has written. -/
structure TxnMutations (K : Type) where
  txn : TxnId
  keys : List K

def recordMutation {K : Type} (modified : Option (TxnMutations K)) (key : K) (txn maxCommitted : TxnId) :
    Result (Option (TxnMutations K)) :=
  if txn ≠ maxCommitted then
    match modified with
    | some modified => do
      Result.assert (modified.txn = txn)
      return some { modified with keys := modified.keys ++ [key] }
    | none => .ok (some ⟨txn,[key]⟩)
  else .ok modified

structure Rows (K V : Type) where
  data : Assoc K (VersionedValue V)
  deleteMask : DeleteMask K V
  modified : Option (TxnMutations K)

namespace Rows
variable {K V : Type}

def empty : Rows K V := ⟨.empty,.none,none⟩

def checkTxnConsistency (txn : TxnId) (r : Rows K V) : Bool :=
  (r.modified.all fun modified => modified.txn = txn) && r.deleteMask.checkTxnId txn

variable [DecidableEq K]

/-- Drop the version of a transaction from a row, and the row if it was the only version. -/
def gcRow (txn : TxnId) (data : Assoc K (VersionedValue V)) (k : K) : Assoc K (VersionedValue V) :=
  data.revise (fun v => v.collect txn) k

/-- Drop what a transaction has written. -/
def gcTxn (txn : TxnId) (r : Rows K V) : Result (Rows K V) :=
  match r.modified with
  | none => .ok { r with deleteMask := .none }
  | some modified => do
    Result.assert (modified.txn = txn)
    let data := modified.keys.foldl (gcRow txn) r.data
    return ⟨data,.none,none⟩

def commitTxn (txn : TxnId) (r : Rows K V) : Result (Rows K V) := do
  Result.assert (r.modified.all fun modified => modified.txn = txn)
  match r.deleteMask with
  | .none => return ⟨r.data,.none,none⟩
  | .all id data => if id = txn then return ⟨data,.none,none⟩ else .error .unreachable
  | .some id removed =>
    if id = txn then return ⟨r.data.eraseAll removed,.none,none⟩ else .error .unreachable

/-- The rows of the main storage that a transaction sees. -/
def iterData (txn : TxnId) (entries : List (K × VersionedValue V)) : List (K × V) :=
  entries.filterMap fun e => (e.2.get txn).map fun v => (e.1,v)

def len (txn : TxnId) (r : Rows K V) : Result ℕ :=
  match r.deleteMask with
  | .none => .ok (iterData txn r.data.entries).length
  | .all _ pending => .ok pending.entries.length
  -- rows are in the mask only if they are in the main storage
  | .some _ removed => Result.sub (iterData txn r.data.entries).length removed.card

def isEmpty (txn : TxnId) (r : Rows K V) : Result Bool :=
  match r.deleteMask with
  | .none => .ok ((iterData txn r.data.entries).length == 0)
  | .all _ pending => .ok pending.entries.isEmpty
  | .some _ removed =>
    if r.data.entries.isEmpty then .ok true
    else do
      let n ← Result.sub (iterData txn r.data.entries).length removed.card
      return n == 0

/-- The rows that a transaction sees, in some order of the keys. -/
def iter (ord : KeyOrder K) (txn : TxnId) (r : Rows K V) : List (K × V) :=
  match r.deleteMask with
  | .none => iterData txn (r.data.sorted ord)
  | .all _ pending => iterData txn (pending.sorted ord)
  | .some _ removed => iterData txn ((r.data.sorted ord).filter fun e => e.1 ∉ removed)

/-- `get_from_table`. -/
def get (key : K) (txn : TxnId) (r : Rows K V) : Result (Option V) := do
  match ← r.deleteMask.get key txn with
  | .unknown => return (r.data.get key).bind fun v => v.get txn
  | .removed => return none
  | .overwritten v => return some v

section
variable {R : Type}

/-- Write to a row of the main storage: the old value, the new one, and what the closure returns. -/
def mutData (key : K) (f : V → V × R) (txn maxCommitted : TxnId) (r : Rows K V) :
    Result (Option (V × V × R) × Rows K V) :=
  match r.data.get key with
  | none => .ok (none,r)
  | some value => do
    let (old,value) ← value.internalClone txn
    match old with
    | none => return (none,{ r with data := r.data.adjust key fun _ => value })
    | some old =>
      let modified ← recordMutation r.modified key txn maxCommitted
      let (new,x) := f old
      return (some (old,new,x),{ r with data := r.data.adjust key fun _ => value.set new txn, modified })

/-- Write to a new row of a transaction that has deleted all others. -/
def mutPresent (id : TxnId) (present : Assoc K (VersionedValue V)) (key : K) (old : V) (f : V → V × R)
    (txn maxCommitted : TxnId) (r : Rows K V) : Result (Option (V × V × R) × Rows K V) := do
  let modified ← recordMutation r.modified key txn maxCommitted
  let (new,x) := f old
  return (some (old,new,x),
    { r with deleteMask := .all id (present.adjust key fun v => v.getMut txn fun _ => new), modified })

def withMut (key : K) (f : V → V × R) (txn maxCommitted : TxnId) (r : Rows K V) :
    Result (Option (V × V × R) × Rows K V) := do
  match ← r.deleteMask.get key txn with
  | .unknown => r.mutData key f txn maxCommitted
  | .removed => return (none,r)
  | .overwritten v =>
    match r.deleteMask with
    | .all id present => r.mutPresent id present key v f txn maxCommitted
    | _ => return (none,r)

end

/-- The keys that an iteration for writing goes over. -/
def mutKeys (ord : KeyOrder K) (r : Rows K V) : List K :=
  match r.deleteMask with
  | .all _ pending => (pending.sorted ord).map Prod.fst
  | _ => (r.data.sorted ord).map Prod.fst

/-- One step of an iteration for writing. The iterator clones the version of a row before the loop
looks whether the row is deleted. -/
def mutNext {R : Type} (key : K) (f : V → V × R) (txn maxCommitted : TxnId) (r : Rows K V) :
    Result (Option (V × V × R) × Rows K V) :=
  match r.deleteMask with
  | .none => r.mutData key f txn maxCommitted
  | .all id present =>
    match (present.get key).bind fun v => v.get txn with
    | some v => r.mutPresent id present key v f txn maxCommitted
    | none => .ok (none,r)
  | .some _ removed =>
    if key ∈ removed then
      match r.data.get key with
      | none => .ok (none,r)
      | some value => do
        let (_,value) ← value.internalClone txn
        return (none,{ r with data := r.data.adjust key fun _ => value })
    else r.mutData key f txn maxCommitted

def insert (key : K) (value : V) (txn maxCommitted : TxnId) (r : Rows K V) : Result (Rows K V) := do
  match ← r.deleteMask.insert key value txn with
  | (.notWritten,deleteMask) =>
    let modified ← recordMutation r.modified key txn maxCommitted
    return ⟨r.data.insert key (((r.data.get key).getD .empty).set value txn),deleteMask,modified⟩
  | (.written _,deleteMask) => return { r with deleteMask }

/-- Remove a row: the value that is handed to the indexes. -/
def remove (key : K) (txn maxCommitted : TxnId) (r : Rows K V) : Result (Option V × Rows K V) :=
  if txn = maxCommitted then
    .ok ((r.data.get key).bind fun v => (v.take txn).1,{ r with data := r.data.erase key })
  else if txn > maxCommitted then do
    let (result,deleteMask) ← r.deleteMask.remove key txn r.data
    return (result.or ((r.data.get key).bind fun v => v.get txn),{ r with deleteMask })
  else .error .unreachable

def clear (txn maxCommitted : TxnId) (r : Rows K V) : Result (Rows K V) :=
  if txn = maxCommitted then .ok { r with data := .empty }
  else if txn > maxCommitted then do
    let deleteMask ← r.deleteMask.clear txn
    return { r with deleteMask }
  else .error .unreachable

end Rows
end Tailnet.KvStore
