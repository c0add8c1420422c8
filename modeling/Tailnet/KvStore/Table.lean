import Tailnet.KvStore.Rows
import Tailnet.Lib.Family

/-! Tables with indexes. An index is itself a table, from the values of a field to the key of the row
that has them; every write to the table goes to its indexes too. -/
namespace Tailnet.KvStore

abbrev Owner := String

/-- The description of a table: its types, and the values that each index has of a row. -/
structure TableDesc where
  Key : Type
  Value : Type
  Index : Type
  Field : Index → Type
  fields : List Index
  nodup : fields.Nodup
  complete : ∀ i, i ∈ fields
  values : (i : Index) → Value → List (Field i)
  decKey : DecidableEq Key
  decIndex : DecidableEq Index
  decField : (i : Index) → DecidableEq (Field i)

attribute [instance] TableDesc.decKey TableDesc.decIndex TableDesc.decField

abbrev Indexes (D : TableDesc) := (i : D.Index) → Rows (D.Field i) D.Key

structure Table (D : TableDesc) where
  owner : Option Owner
  rows : Rows D.Key D.Value
  indexes : Indexes D

namespace Indexes
variable {D : TableDesc}

def clear (txn maxCommitted : TxnId) (indexes : Indexes D) : Result (Indexes D) :=
  mapFamily D.fields (fun _ r => r.clear txn maxCommitted) indexes

def onInsert (key : D.Key) (value : D.Value) (txn maxCommitted : TxnId) (indexes : Indexes D) :
    Result (Indexes D) :=
  mapFamily D.fields
    (fun i r => (D.values i value).foldlM (fun r x => r.insert x key txn maxCommitted) r) indexes

def onRemove (value : D.Value) (txn maxCommitted : TxnId) (indexes : Indexes D) :
    Result (Indexes D) :=
  mapFamily D.fields
    (fun i r => (D.values i value).foldlM (fun r x => Prod.snd <$> r.remove x txn maxCommitted) r)
    indexes

end Indexes

namespace Table
variable {D : TableDesc} {R : Type}

def empty : Table D := ⟨none,.empty,fun _ => .empty⟩

/-- `try_set_owner`: the owner that the table has already. -/
def trySetOwner (owner : Owner) (T : Table D) : Option Owner × Table D :=
  match T.owner with
  | some prev => (some prev,T)
  | none => (none,{ T with owner := some owner })

def violation (prev owner : Owner) : Panic :=
  .message ("Ownership violation: expected " ++ prev ++ ", found " ++ owner)

def assertOrSetOwner (owner : Owner) (T : Table D) : Result (Table D) :=
  match T.owner with
  | some prev => if prev = owner then .ok T else .error (violation prev owner)
  | none => .ok { T with owner := some owner }

def assertOwner (owner : Owner) (T : Table D) : Result Unit :=
  match T.owner with
  | some prev => if prev = owner then .ok () else .error (violation prev owner)
  | none => .ok ()

def insert (key : D.Key) (value : D.Value) (txn maxCommitted : TxnId) (T : Table D) :
    Result (Table D) := do
  let indexes ← match ← T.rows.get key txn with
    | some old => T.indexes.onRemove old txn maxCommitted
    | none => .ok T.indexes
  let indexes ← indexes.onInsert key value txn maxCommitted
  let rows ← T.rows.insert key value txn maxCommitted
  return { T with rows, indexes }

def remove (key : D.Key) (txn maxCommitted : TxnId) (T : Table D) : Result (Table D) := do
  let (old,rows) ← T.rows.remove key txn maxCommitted
  match old with
  | some value => do
    let indexes ← T.indexes.onRemove value txn maxCommitted
    return { T with rows, indexes }
  | none => return { T with rows }

def clear (txn maxCommitted : TxnId) (T : Table D) : Result (Table D) := do
  let rows ← T.rows.clear txn maxCommitted
  let indexes ← T.indexes.clear txn maxCommitted
  return { T with rows, indexes }

/-- The indexes after a write to a row, and what the closure of the write returned. -/
def reindex (key : D.Key) (txn maxCommitted : TxnId) (T : Table D) :
    Option (D.Value × D.Value × R) × Rows D.Key D.Value → Result (Option R × Table D)
  | (none,rows) => .ok (none,{ T with rows })
  | (some (old,new,x),rows) => do
    let indexes ← T.indexes.onRemove old txn maxCommitted
    let indexes ← indexes.onInsert key new txn maxCommitted
    return (some x,{ T with rows, indexes })

def withMut (key : D.Key) (f : D.Value → D.Value × R) (txn maxCommitted : TxnId) (T : Table D) :
    Result (Option R × Table D) := do
  T.reindex key txn maxCommitted (← T.rows.withMut key f txn maxCommitted)

/-- One row of `for_each_mut`, whose closure keeps a state. -/
def visit (f : D.Key → D.Value → R → D.Value × R) (txn maxCommitted : TxnId) (s : Table D × R)
    (key : D.Key) : Result (Table D × R) := do
  let (x,T) ← s.1.reindex key txn maxCommitted
    (← s.1.rows.mutNext key (fun v => f key v s.2) txn maxCommitted)
  return (T,x.getD s.2)

def forEachMut (ord : KeyOrder D.Key) (f : D.Key → D.Value → R → D.Value × R) (x : R)
    (txn maxCommitted : TxnId) (T : Table D) : Result (Table D × R) :=
  (T.rows.mutKeys ord).foldlM (visit f txn maxCommitted) (T,x)

/-- `get` of the table through an index. -/
def getBy (i : D.Index) (x : D.Field i) (txn : TxnId) (T : Table D) : Result (Option D.Value) := do
  match ← (T.indexes i).get x txn with
  | some key => T.rows.get key txn
  | none => return none

/-- The rows and the indexes have no state of another transaction. -/
def checkTxnConsistency (txn : TxnId) (T : Table D) : Bool :=
  T.rows.checkTxnConsistency txn && D.fields.all fun i => (T.indexes i).checkTxnConsistency txn

def commitTxn (txn : TxnId) (T : Table D) : Result (Table D) := do
  let rows ← T.rows.commitTxn txn
  let indexes ← mapFamily D.fields (fun _ r => r.commitTxn txn) T.indexes
  return { T with rows, indexes }

def gcTxn (txn : TxnId) (T : Table D) : Result (Table D) := do
  let rows ← T.rows.gcTxn txn
  let indexes ← mapFamily D.fields (fun _ r => r.gcTxn txn) T.indexes
  return { T with rows, indexes }

end Table
end Tailnet.KvStore
