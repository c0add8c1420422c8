import Tailnet.KvStore.IndexRuns

/-! The store: single values and tables, the last committed transaction and the one in progress. Calls
are made outside of transactions, or inside of one, which then commits, is rolled back or is
abandoned; what is left of an abandoned one is dropped at the next access. -/
namespace Tailnet.KvStore

/-- The single values and the tables of a store. -/
structure Schema where
  Singleton : Type
  /-- the stored values; a deleted one is none -/
  SinValue : Type
  Tab : Type
  desc : Tab → TableDesc
  names : List Tab
  nodup : names.Nodup
  complete : ∀ τ, τ ∈ names
  decSingleton : DecidableEq Singleton
  decTab : DecidableEq Tab

attribute [instance] Schema.decSingleton Schema.decTab

structure Storage (S : Schema) where
  singletons : Assoc S.Singleton (Owner × VersionedValue (Option S.SinValue))
  tables : (τ : S.Tab) → Table (S.desc τ)
  committed : TxnId
  pendingTxn : Option (TxnId × List S.Singleton)
  nextTxn : TxnId

inductive TableCall (D : TableDesc) (R : Type)
  | init
  | write (w : Write D R)
  | forEachMut (ord : KeyOrder D.Key) (f : D.Key → D.Value → R → D.Value × R) (x : R)
  | get (key : D.Key)
  | len
  | isEmpty
  | iter (ord : KeyOrder D.Key)

inductive TableReply (D : TableDesc) (R : Type)
  | alreadyInit (owner : Option Owner)
  | written (x : Option R)
  | visited (x : R)
  | value (v : Option D.Value)
  | len (n : ℕ)
  | isEmpty (b : Bool)
  | rows (l : List (D.Key × D.Value))

namespace TableCall
variable {D : TableDesc} {R : Type}

/-- The check of the owner before a write. Insertions and clearing set the owner of a table. -/
def checkOwner (owner : Owner) (T : Table D) : Write D R → Result (Table D)
  | .insert _ _ => T.assertOrSetOwner owner
  | .clear => T.assertOrSetOwner owner
  | _ => do
    T.assertOwner owner
    return T

def run (owner : Owner) (txn maxCommitted : TxnId) (call : TableCall D R) (T : Table D) :
    Result (TableReply D R × Table D) :=
  match call with
  | init =>
    let (prev,T) := T.trySetOwner owner
    .ok (.alreadyInit prev,T)
  | write w => do
    let T ← checkOwner owner T w
    let (x,T) ← w.run txn maxCommitted T
    return (.written x,T)
  | forEachMut ord f x => do
    T.assertOwner owner
    let (T,x) ← T.forEachMut ord f x txn maxCommitted
    return (.visited x,T)
  | get key => do return (.value (← T.rows.get key txn),T)
  | len => do return (.len (← T.rows.len txn),T)
  | isEmpty => do return (.isEmpty (← T.rows.isEmpty txn),T)
  | iter ord => .ok (.rows (T.rows.iter ord txn),T)

end TableCall

inductive Op (S : Schema) (R : Type)
  | get (key : S.Singleton)
  | insert (key : S.Singleton) (value : S.SinValue)
  | remove (key : S.Singleton)
  | table (τ : S.Tab) (call : TableCall (S.desc τ) R)

/-- A call, or a read through an index. -/
inductive Access (S : Schema) (R : Type)
  | op (op : Op S R)
  | lookup (τ : S.Tab) (i : (S.desc τ).Index) (x : (S.desc τ).Field i)
  | getBy (τ : S.Tab) (i : (S.desc τ).Index) (x : (S.desc τ).Field i)

inductive Reply (S : Schema) (R : Type)
  | done
  | value (v : Option S.SinValue)
  | table (τ : S.Tab) (r : TableReply (S.desc τ) R)
  | key (τ : S.Tab) (k : Option (S.desc τ).Key)
  | row (τ : S.Tab) (v : Option (S.desc τ).Value)
  /-- whether a commit succeeded -/
  | committed (ok : Bool)

namespace Storage
variable {S : Schema} {R : Type}

def new : Storage S := ⟨.empty,fun _ => .empty,1,none,2⟩

def txnId (s : Storage S) : TxnId := (s.pendingTxn.map Prod.fst).getD s.committed

def recordMutation (key : S.Singleton) (txn : TxnId) (s : Storage S) : Result (Storage S) :=
  if s.committed ≠ txn then
    match s.pendingTxn with
    | some (id,modified) => do
      Result.assert (id = txn)
      return { s with pendingTxn := some (id,modified ++ [key]) }
    | none => .ok s
  else .ok s

def insertSingleton (key : S.Singleton) (owner : Owner) (value : S.SinValue) (txn : TxnId)
    (s : Storage S) : Result (Storage S) := do
  let s ← s.recordMutation key txn
  match s.singletons.get key with
  | some _ =>
    return { s with singletons := s.singletons.adjust key fun e => (e.1,e.2.set (some value) txn) }
  | none => return { s with singletons := s.singletons.insert key (owner,.new (some value) txn) }

def removeSingleton (key : S.Singleton) (txn : TxnId) (s : Storage S) : Result (Storage S) := do
  let s ← s.recordMutation key txn
  return { s with singletons := s.singletons.adjust key fun e => (e.1,e.2.set none txn) }

def getSingletonValue (key : S.Singleton) (txn : TxnId) (s : Storage S) : Option S.SinValue :=
  (s.singletons.get key).bind fun e => (e.2.get txn).join

def getSingletonOwner (key : S.Singleton) (s : Storage S) : Option Owner :=
  (s.singletons.get key).map Prod.fst

def assertOwner (owner : Owner) (key : S.Singleton) (s : Storage S) : Result Unit :=
  match s.getSingletonOwner key with
  | some prev => if prev = owner then .ok () else .error (Table.violation prev owner)
  | none => .ok ()

def beginTransaction (s : Storage S) : TxnId × Storage S :=
  (s.nextTxn,{ s with pendingTxn := some (s.nextTxn,[]), nextTxn := s.nextTxn + 1 })

/-- All tables commit, if none has state of another transaction. -/
def commitTables (txn : TxnId) (s : Storage S) : Result (Bool × Storage S) :=
  if S.names.all fun τ => (s.tables τ).checkTxnConsistency txn then do
    let tables ← mapFamily S.names (fun _ T => T.commitTxn txn) s.tables
    return (true,{ s with tables })
  else .ok (false,s)

def commitTransaction (txn : TxnId) (s : Storage S) : Result (Bool × Storage S) :=
  match s.pendingTxn with
  | none => .ok (false,s)
  | some (pending,_) =>
    if pending ≠ txn then .ok (false,s)
    else do
      let (ok,s) ← s.commitTables txn
      if ok then return (true,{ s with committed := pending, pendingTxn := none })
      else return (false,s)

/-- Drop the version of a transaction from a single value, and the value if it was the only version. -/
def gcSingleton (txn : TxnId)
    (singletons : Assoc S.Singleton (Owner × VersionedValue (Option S.SinValue))) (key : S.Singleton) :
    Assoc S.Singleton (Owner × VersionedValue (Option S.SinValue)) :=
  singletons.revise (fun e => (e.2.collect txn).map fun v => (e.1,v)) key

def clearTransaction (s : Storage S) : Result (Storage S) :=
  match s.pendingTxn with
  | none => .ok s
  | some (id,modified) => do
    let singletons := modified.foldl (gcSingleton id) s.singletons
    let tables ← mapFamily S.names (fun _ T => T.gcTxn id) s.tables
    return { s with singletons, tables, pendingTxn := none }

def rollbackTransaction (txn : TxnId) (s : Storage S) : Result (Storage S) :=
  match s.pendingTxn with
  | none => .ok s
  | some (pending,_) => if pending ≠ txn then .ok s else s.clearTransaction

def op (owner : Owner) (op : Op S R) (s : Storage S) : Result (Reply S R × Storage S) :=
  match op with
  | .get key => .ok (.value (s.getSingletonValue key s.txnId),s)
  | .insert key value => do
    s.assertOwner owner key
    return (.done,← s.insertSingleton key owner value s.txnId)
  | .remove key => do
    s.assertOwner owner key
    return (.done,← s.removeSingleton key s.txnId)
  | .table τ call => do
    let (r,T) ← call.run owner s.txnId s.committed (s.tables τ)
    return (.table τ r,{ s with tables := Function.update s.tables τ T })

def access (owner : Owner) (a : Access S R) (s : Storage S) : Result (Reply S R × Storage S) :=
  match a with
  | .op op => s.op owner op
  | .lookup τ i x => do return (.key τ (← ((s.tables τ).indexes i).get x s.txnId),s)
  | .getBy τ i x => do return (.row τ (← (s.tables τ).getBy i x s.txnId),s)

end Storage

inductive Finish
  | commit
  | rollback
  | abandon
  deriving DecidableEq

/-- A call outside of transactions, or a whole transaction. -/
inductive Item (S : Schema) (R : Type)
  | raw (owner : Owner) (a : Access S R)
  | txn (owner : Owner) (as : List (Access S R)) (finish : Finish)

namespace Item
variable {S : Schema} {R : Type}

/-- The end of a transaction; a transaction that is dropped is rolled back. -/
def finish (id : TxnId) (rs : List (Reply S R)) (s : Storage S) :
    Finish → Result (List (Reply S R) × Storage S)
  | .commit => do
    let (ok,s) ← s.commitTransaction id
    let s ← s.rollbackTransaction id
    return (rs ++ [.committed ok],s)
  | .rollback => do return (rs,← s.rollbackTransaction id)
  | .abandon => .ok (rs,s)

/-- Every access drops what is left of an abandoned transaction first. -/
def run (item : Item S R) (s : Storage S) : Result (List (Reply S R) × Storage S) := do
  let s ← s.clearTransaction
  match item with
  | raw owner a =>
    let (r,s) ← s.access owner a
    return ([r],s)
  | txn owner as finish =>
    let (id,s) := s.beginTransaction
    let (rs,s) ← runAll (Storage.access owner) as s
    Item.finish id rs s finish

end Item
end Tailnet.KvStore
