import Tailnet.KvStore.Rollback

/-! The store refines plain maps. Calls on a map per table and one for the single values, each with
its owner, are the reference; a transaction works on the maps directly, and its commit does nothing.
As long as every transaction commits, the store returns what the reference returns. -/
namespace Tailnet.KvStore
open Function List Result Assoc

/-- A plain map with an owner. -/
structure PlainTable (D : TableDesc) where
  owner : Option Owner
  rows : Assoc D.Key D.Value

namespace Write
variable {D : TableDesc} {R : Type}

def plain (w : Write D R) (rows : Assoc D.Key D.Value) : Option R × Assoc D.Key D.Value :=
  match w with
  | insert key value => (none,rows.insert key value)
  | remove key => (none,rows.erase key)
  | clear => (none,.empty)
  | withMut key f =>
    match rows.get key with
    | none => (none,rows)
    | some v => (some (f v).2,rows.insert key (f v).1)

end Write

theorem claimOwner_eq_error {sets : Bool} {owner : Owner} {o : Option Owner} {q : Panic}
    (h : claimOwner sets owner o = .error q) : ∃ prev owner, q = Table.violation prev owner := by
  cases o with
  | none => cases h
  | some prev =>
    rw [claimOwner] at h
    split at h
    · cases h
    · cases h
      exact ⟨prev,owner,rfl⟩

namespace PlainTable
variable {D : TableDesc} {R : Type}

/-- Change rows one after the other, with a state. -/
def visitAll (f : D.Key → D.Value → R → D.Value × R) (l : List (D.Key × D.Value))
    (s : Assoc D.Key D.Value × R) : Assoc D.Key D.Value × R :=
  l.foldl (fun s e => (s.1.insert e.1 (f e.1 e.2 s.2).1,(f e.1 e.2 s.2).2)) s

def call (owner : Owner) (call : TableCall D R) (P : PlainTable D) :
    Result (TableReply D R × PlainTable D) :=
  match call with
  | .init => .ok (.alreadyInit P.owner,{ P with owner := P.owner.or (some owner) })
  | .write w => do
    let o ← claimOwner w.setsOwner owner P.owner
    return (.written (w.plain P.rows).1,⟨o,(w.plain P.rows).2⟩)
  | .forEachMut ord f x => do
    let _ ← claimOwner false owner P.owner
    let (rows,x) := visitAll f (P.rows.sorted ord) (P.rows,x)
    return (.visited x,{ P with rows })
  | .get key => .ok (.value (P.rows.get key),P)
  | .len => .ok (.len P.rows.entries.length,P)
  | .isEmpty => .ok (.isEmpty (P.rows.entries.length == 0),P)
  | .iter ord => .ok (.rows (P.rows.sorted ord),P)

theorem call_eq_error {owner : Owner} {call : TableCall D R} {P : PlainTable D} {q : Panic}
    (h : P.call owner call = .error q) : ∃ prev owner, q = Table.violation prev owner := by
  cases call with
  | write w =>
    rcases bind_eq_error.mp h with h | ⟨o,-,h⟩
    · exact claimOwner_eq_error h
    · cases h
  | forEachMut ord f x =>
    rcases bind_eq_error.mp h with h | ⟨o,-,h⟩
    · exact claimOwner_eq_error h
    · cases h
  | init | get | len | isEmpty | iter => cases h

end PlainTable

structure Plain (S : Schema) where
  singletons : Assoc S.Singleton (Owner × Option S.SinValue)
  tables : (τ : S.Tab) → PlainTable (S.desc τ)

namespace Plain
variable {S : Schema} {R : Type}

def new : Plain S := ⟨.empty,fun _ => ⟨none,.empty⟩⟩

def op (owner : Owner) (op : Op S R) (p : Plain S) : Result (Reply S R × Plain S) :=
  match op with
  | .get key => .ok (.value ((p.singletons.get key).bind Prod.snd),p)
  | .insert key value => do
    let prev := (p.singletons.get key).map Prod.fst
    let _ ← claimOwner false owner prev
    return (.done,{ p with singletons := p.singletons.insert key (prev.getD owner,some value) })
  | .remove key => do
    let _ ← claimOwner false owner ((p.singletons.get key).map Prod.fst)
    return (.done,{ p with singletons := p.singletons.adjust key fun e => (e.1,none) })
  | .table τ call => do
    let (r,T) ← (p.tables τ).call owner call
    return (.table τ r,{ p with tables := update p.tables τ T })

theorem op_eq_error {owner : Owner} {op : Op S R} {p : Plain S} {q : Panic}
    (h : p.op owner op = .error q) : ∃ prev owner, q = Table.violation prev owner := by
  cases op with
  | get key => cases h
  | insert key value =>
    rcases bind_eq_error.mp h with h | ⟨o,-,h⟩
    · exact claimOwner_eq_error h
    · cases h
  | remove key =>
    rcases bind_eq_error.mp h with h | ⟨o,-,h⟩
    · exact claimOwner_eq_error h
    · cases h
  | table τ call =>
    rcases bind_eq_error.mp h with h | ⟨o,-,h⟩
    · exact PlainTable.call_eq_error h
    · cases h

end Plain

/-- A call outside of transactions, or a transaction that commits. -/
inductive PlainItem (S : Schema) (R : Type)
  | raw (owner : Owner) (op : Op S R)
  | txn (owner : Owner) (ops : List (Op S R))

namespace PlainItem
variable {S : Schema} {R : Type}

def item : PlainItem S R → Item S R
  | raw owner op => .raw owner (.op op)
  | txn owner ops => .txn owner (ops.map .op) .commit

def run (item : PlainItem S R) (p : Plain S) : Result (List (Reply S R) × Plain S) :=
  match item with
  | raw owner op => do
    let (r,p) ← p.op owner op
    return ([r],p)
  | txn owner ops => do
    let (rs,p) ← runAll (Plain.op owner) ops p
    return (rs ++ [.committed true],p)

end PlainItem

namespace Table
variable {D : TableDesc} {R : Type} {c t : TxnId} {T : Table D} {P : PlainTable D}

structure Shows (c t : TxnId) (T : Table D) (P : PlainTable D) : Prop where
  ok : T.Ok c t
  rows : (T.image c t).rows.view = P.rows.get
  owner : T.owner = P.owner

theorem Shows.write (h : Shows c t T P) (w : Write D R) :
    w.reply (T.image c t) = (w.plain P.rows).1 ∧
      (w.next (c < t) (T.image c t)).rows.view = (w.plain P.rows).2.get := by
  cases w with
  | insert key value =>
    refine ⟨rfl,?_⟩
    rw [Write.plain,get_insert_eq,← h.rows]
    exact Image.view_insert _
  | remove key =>
    refine ⟨rfl,?_⟩
    rw [Write.plain,get_erase_eq,← h.rows]
    exact Image.view_remove h.ok.settled.rows
  | clear =>
    refine ⟨rfl,?_⟩
    exact (Image.view_clear _).trans (funext fun k => (get_empty k).symm)
  | withMut key f =>
    cases hk : P.rows.get key with
    | none =>
      have hview : (T.image c t).rows.view key = none := by rw [h.rows,hk]
      simp [Write.reply,Write.plain,hk,Write.next,TableImage.mutate,hview,h.rows]
    | some v =>
      have hview : (T.image c t).rows.view key = some v := by rw [h.rows,hk]
      refine ⟨by simp [Write.reply,Write.plain,hk,hview],?_⟩
      have hmutate : (Write.next (c < t) (Write.withMut key f) (T.image c t)).rows =
          (T.image c t).rows.mutate (c < t) key fun v => (f v).1 := by
        simp [Write.next,TableImage.mutate,hview]
      rw [hmutate,Image.view_mutate,hview,h.rows]
      simp [Write.plain,hk,get_insert_eq]

theorem view_visit {s : TableImage D} {inTxn : Bool} {f : D.Key → D.Value → R → D.Value × R} {x : R}
    {k : D.Key} {v : D.Value} (h : s.rows.view k = some v) :
    (s.visit inTxn f x k).1.rows.view = update s.rows.view k (some (f k v x).1) ∧
      (s.visit inTxn f x k).2 = (f k v x).2 := by
  refine ⟨?_,by simp [TableImage.visit,h]⟩
  have hmutate : (s.visit inTxn f x k).1.rows = s.rows.mutate inTxn k fun v => (f k v x).1 := by
    simp [TableImage.visit,TableImage.mutate,h]
  rw [hmutate,Image.view_mutate,h]
  rfl

theorem forEachImage_cons {s : TableImage D} {inTxn : Bool} {f : D.Key → D.Value → R → D.Value × R} {x : R}
    {k : D.Key} {v : D.Value} (h : s.rows.view k = some v) (keys : List D.Key) :
    forEachImage inTxn f (k::keys) s x = forEachImage inTxn f keys (s.visit inTxn f x k).1 (f k v x).2 := by
  have hpair : s.visit inTxn f x k = ((s.visit inTxn f x k).1,(f k v x).2) := Prod.ext rfl (view_visit h).2
  rw [forEachImage,foldl_cons,hpair]
  rfl

/-- Rows that the transaction does not see are passed over. -/
theorem forEachImage_filter (inTxn : Bool) (f : D.Key → D.Value → R → D.Value × R) (keys : List D.Key)
    (s : TableImage D) (x : R) : forEachImage inTxn f keys s x =
      forEachImage inTxn f (keys.filter fun k => (s.rows.view k).isSome) s x := by
  induction keys generalizing s x with
  | nil => rfl
  | cons k keys ih =>
    cases hk : s.rows.view k with
    | none =>
      have hvisit : s.visit inTxn f x k = (s,x) := by simp [TableImage.visit,TableImage.mutate,hk]
      rw [filter_cons_of_neg (by simp [hk]),← ih]
      simp [forEachImage,hvisit]
    | some v =>
      have hview : (s.visit inTxn f x k).1.rows.view = update s.rows.view k (some (f k v x).1) :=
        (view_visit hk).1
      have hsome : (fun k' => ((s.visit inTxn f x k).1.rows.view k').isSome) =
          fun k' => (s.rows.view k').isSome := by
        funext k'
        rw [hview]
        by_cases heq : k' = k
        · subst heq
          simp [hk]
        · simp [heq]
      rw [filter_cons_of_pos (by simp [hk])]
      simp only [forEachImage,foldl_cons]
      have hrest := ih (s.visit inTxn f x k).1 (s.visit inTxn f x k).2
      rw [hsome] at hrest
      exact hrest

/-- Rows are changed one after the other as in the plain map. -/
theorem forEachImage_visitAll (inTxn : Bool) (f : D.Key → D.Value → R → D.Value × R)
    (l : List (D.Key × D.Value)) (hnodup : (l.map Prod.fst).Nodup) {s : TableImage D}
    {m : Assoc D.Key D.Value} (hview : s.rows.view = m.get) (hl : ∀ e ∈ l, m.get e.1 = some e.2) (x : R) :
    (forEachImage inTxn f (l.map Prod.fst) s x).1.rows.view = (PlainTable.visitAll f l (m,x)).1.get ∧
      (forEachImage inTxn f (l.map Prod.fst) s x).2 = (PlainTable.visitAll f l (m,x)).2 := by
  induction l generalizing s m x with
  | nil => exact ⟨hview,rfl⟩
  | cons e l ih =>
    obtain ⟨k,v⟩ := e
    obtain ⟨hk,hnodup⟩ := nodup_cons.mp hnodup
    have hv : s.rows.view k = some v := by
      rw [hview]
      exact hl (k,v) mem_cons_self
    have hvisit : (s.visit inTxn f x k).1.rows.view = update s.rows.view k (some (f k v x).1) :=
      (view_visit hv).1
    have hl' : ∀ e ∈ l, (m.insert k (f k v x).1).get e.1 = some e.2 := by
      intro e he
      have hne : e.1 ≠ k := by
        rintro rfl
        exact hk (mem_map.mpr ⟨e,he,rfl⟩)
      rw [get_insert,if_neg hne]
      exact hl e (mem_cons_of_mem _ he)
    have hview' : (s.visit inTxn f x k).1.rows.view = (m.insert k (f k v x).1).get := by
      rw [hvisit,hview,get_insert_eq]
    rw [map_cons,forEachImage_cons hv]
    exact ih hnodup hview' hl' (f k v x).2

theorem Shows.iter (h : Shows c t T P) (ord : KeyOrder D.Key) :
    T.rows.iter ord t = P.rows.sorted ord := by
  have hiter := Rows.inOrder_iter T.rows ord t
  refine eq_sorted (pairwise_map.mp hiter.sorted) hiter.nodup fun k v => ?_
  rw [Rows.mem_iter (c := c),← h.rows]
  rfl

/-- An iteration yields every key that the transaction sees once, and the table is counted right. -/
def ReadsAgree (txn : TxnId) (T : Table D) : Prop :=
  ∀ ord, T.rows.len txn = .ok (T.rows.iter ord txn).length ∧
    T.rows.isEmpty txn = .ok ((T.rows.iter ord txn).length == 0) ∧
    ((T.rows.iter ord txn).map Prod.fst).Nodup ∧
    ∀ k v, (k,v) ∈ T.rows.iter ord txn ↔ T.rows.get k txn = .ok (some v)

theorem Ok.readsAgree (h : T.Ok c t) : T.ReadsAgree t := by
  refine fun ord => ⟨h.rows.len ord,h.rows.isEmpty ord,(Rows.inOrder_iter T.rows ord t).nodup,
    fun k v => ?_⟩
  rw [Rows.mem_iter (c := c),h.rows.get k,Except.ok.injEq]

theorem Shows.call (h : Shows c t T P) (owner : Owner) (call : TableCall D R) :
    Agrees (Shows c t) (call.run owner t c T) (P.call owner call) := by
  cases call with
  | init =>
    obtain ⟨prev,rows,indexes⟩ := T
    obtain ⟨prev',rows'⟩ := P
    obtain ⟨hok,hrows,howner⟩ := h
    have hprev : prev = prev' := howner
    subst hprev
    cases prev with
    | none => exact ⟨_,rfl,⟨hok.rows,hok.indexes⟩,hrows,rfl⟩
    | some prev => exact ⟨_,rfl,hok,hrows,rfl⟩
  | write w =>
    rw [TableCall.run,PlainTable.call,TableCall.checkOwner_eq,h.owner]
    cases hclaim : claimOwner w.setsOwner owner P.owner with
    | error p => exact rfl
    | ok o =>
      have hok : ({ T with owner := o } : Table D).Ok c t := ⟨h.ok.rows,h.ok.indexes⟩
      obtain ⟨T1,hT1,hfollows⟩ := w.run_spec hok
      obtain ⟨hreply,hview⟩ := h.write w
      have himage : ({ T with owner := o } : Table D).image c t = T.image c t := rfl
      have himage1 := hfollows.image
      rw [himage] at hT1 himage1
      rw [hreply] at hT1
      simp only [map_of_ok,bind_of_ok,hT1]
      exact ⟨T1,rfl,hfollows.ok,by rw [himage1,hview],hfollows.owner⟩
  | forEachMut ord f x =>
    obtain ⟨T1,hT1,hok1,himage1,howner1,-⟩ := h.ok.forEachMut ord f x
    have hkeys := h.ok.rows.filter_mutKeys ord
    rw [h.iter ord] at hkeys
    have hfilter := forEachImage_filter (c < t) f (T.rows.mutKeys ord) (T.image c t) x
    rw [show (T.image c t).rows = T.rows.image c t from rfl,hkeys] at hfilter
    obtain ⟨hview,hx⟩ := forEachImage_visitAll (c < t) f (P.rows.sorted ord) (P.rows.nodup_sorted ord)
      h.rows (fun e he => mem_sorted.mp he) x
    rw [hfilter] at hT1 himage1
    rw [hx] at hT1
    rw [TableCall.run,PlainTable.call,Table.assertOwner_eq,h.owner]
    cases hclaim : claimOwner false owner P.owner with
    | error p => exact rfl
    | ok o =>
      simp only [map_of_ok,bind_of_ok,hT1]
      exact ⟨T1,rfl,hok1,by rw [himage1,hview],howner1.trans h.owner⟩
  | get key =>
    have hget := h.ok.rows.get key
    have hview : (T.rows.image c t).view key = P.rows.get key := congrFun h.rows key
    rw [hview] at hget
    simp only [TableCall.run,hget]
    exact ⟨T,rfl,h⟩
  | len =>
    obtain ⟨ord⟩ := KeyOrder.exists D.Key
    have hlen := h.ok.rows.len ord
    rw [h.iter ord,length_sorted] at hlen
    simp only [TableCall.run,hlen]
    exact ⟨T,rfl,h⟩
  | isEmpty =>
    obtain ⟨ord⟩ := KeyOrder.exists D.Key
    have hempty := h.ok.rows.isEmpty ord
    rw [h.iter ord,length_sorted] at hempty
    simp only [TableCall.run,hempty]
    exact ⟨T,rfl,h⟩
  | iter ord =>
    rw [TableCall.run,PlainTable.call,h.iter ord]
    exact ⟨T,rfl,h⟩

end Table

namespace Storage
variable {S : Schema} {R : Type} {s s' : Storage S} {p : Plain S}

structure Shows (s : Storage S) (p : Plain S) : Prop where
  ok : s.Ok
  singletons : sinAt s.txnId s.singletons = p.singletons.get
  tables : ∀ τ, Table.Shows s.committed s.txnId (s.tables τ) (p.tables τ)

theorem Shows.owner (h : Shows s p) (key : S.Singleton) :
    s.getSingletonOwner key = (p.singletons.get key).map Prod.fst := by
  rw [h.ok.getSingletonOwner,h.singletons]

theorem Shows.wrote (h : Shows s p) {key : S.Singleton} {e : Option (Owner × Option S.SinValue)}
    (hwrote : Wrote s s' key e) {m : Assoc S.Singleton (Owner × Option S.SinValue)}
    (hm : m.get = update p.singletons.get key e) : Shows s' { p with singletons := m } := by
  refine ⟨hwrote.ok,?_,fun τ => ?_⟩
  · rw [hwrote.txnId,hwrote.seen,h.singletons,← hm]
  · rw [hwrote.txnId,hwrote.committed,hwrote.tables]
    exact h.tables τ

theorem Shows.setTable (h : Shows s p) (τ : S.Tab) {T : Table (S.desc τ)} {P : PlainTable (S.desc τ)}
    (hT : Table.Shows s.committed s.txnId T P) :
    Shows { s with tables := update s.tables τ T }
      { p with tables := update p.tables τ P } := by
  refine ⟨h.ok.setTable τ hT.ok,h.singletons,fun τ' => ?_⟩
  change Table.Shows s.committed s.txnId (update s.tables τ T τ') (update p.tables τ P τ')
  by_cases hτ : τ' = τ
  · subst hτ
    simpa using hT
  · simpa [update_of_ne hτ] using h.tables τ'

/-- Calls of the store return what the plain maps return. -/
theorem Shows.op (h : Shows s p) (owner : Owner) (op : Op S R) :
    Agrees Shows (s.op owner op) (p.op owner op) := by
  cases op with
  | get key =>
    refine ⟨s,?_,h⟩
    rw [Storage.op,h.ok.getSingletonValue,h.singletons]
  | insert key value =>
    obtain ⟨s1,hs1,hwrote⟩ := h.ok.insertSingleton key owner value
    rw [h.owner] at hwrote
    simp only [Storage.op,Plain.op,assertOwner_eq,h.owner,hs1]
    cases hclaim : claimOwner false owner ((p.singletons.get key).map Prod.fst) with
    | error q => exact rfl
    | ok o => exact ⟨s1,rfl,h.wrote hwrote (get_insert_eq _ _ _)⟩
  | remove key =>
    obtain ⟨s1,hs1,hwrote⟩ := h.ok.removeSingleton key
    rw [h.owner] at hwrote
    simp only [Storage.op,Plain.op,assertOwner_eq,h.owner,hs1]
    cases hclaim : claimOwner false owner ((p.singletons.get key).map Prod.fst) with
    | error q => exact rfl
    | ok o =>
      refine ⟨s1,rfl,h.wrote hwrote ?_⟩
      funext key'
      rw [get_adjust,update_apply,Option.map_map]
      rfl
  | table τ call =>
    refine ((h.tables τ).call owner call).bind fun r T P hT => ?_
    exact ⟨_,rfl,h.setTable τ hT⟩

theorem Shows.begin (h : Shows s p) (hnone : s.pendingTxn = none) : Shows s.beginTransaction.2 p := by
  obtain ⟨hok,-,hseen,htables⟩ := h.ok.begin hnone
  have heq := txnId_of_none hnone
  have hsin := h.singletons
  rw [heq] at hsin
  refine ⟨hok,hseen.trans hsin,fun τ => ⟨hok.tables τ,?_,(h.tables τ).owner⟩⟩
  have hrows := (h.tables τ).rows
  rw [heq,← htables τ] at hrows
  exact hrows

theorem Shows.commit (h : Shows s p) (h' : Committed s s') : Shows s' p := by
  have heq := txnId_of_none h'.pending
  refine ⟨h'.ok,?_,fun τ => ⟨h'.ok.tables τ,?_,(h'.owner τ).trans (h.tables τ).owner⟩⟩
  · rw [heq,h'.committed,h'.singletons,h.singletons]
  · rw [heq,h'.committed,h'.tables τ]
    exact (h.tables τ).rows

/-- The store shows the plain maps, outside of a transaction. -/
def ShowsQuiet (s : Storage S) (p : Plain S) : Prop := Shows s p ∧ s.pendingTxn = none

end Storage

namespace PlainItem
variable {S : Schema} {R : Type} {s : Storage S} {p : Plain S}

/-- Calls, and transactions that commit, return what they return on the plain maps. -/
theorem run_agrees (item : PlainItem S R) (h : Storage.ShowsQuiet s p) :
    Agrees Storage.ShowsQuiet (item.item.run s) (item.run p) := by
  obtain ⟨hshows,hnone⟩ := h
  have hclear : s.clearTransaction = .ok s := by simp [Storage.clearTransaction,hnone]
  cases item with
  | raw owner op =>
    have hagrees := hshows.op owner op
    cases hp : p.op owner op with
    | error q =>
      rw [hp] at hagrees
      have hs : s.op owner op = .error q := hagrees
      simp only [item,Item.run,hclear,bind_of_ok,Storage.access,hs,run,hp]
      exact rfl
    | ok r =>
      rw [hp] at hagrees
      obtain ⟨s1,hs1,hshows1⟩ := hagrees
      have hpending := hshows.ok.access_pending (a := .op op) hs1
      rw [hnone,Option.isSome_none,Option.isSome_eq_false_iff,Option.isNone_iff_eq_none] at hpending
      simp only [item,Item.run,hclear,bind_of_ok,Storage.access,hs1,run,hp]
      exact ⟨s1,rfl,hshows1,hpending⟩
  | txn owner ops =>
    have hbegin := hshows.begin hnone
    have hagrees := runAll_agrees (fun op s p hrel => Storage.Shows.op hrel owner op) ops hbegin
    rw [item,Item.run_txn_eq hclear,runAll_map,run]
    cases hp : runAll (Plain.op owner) ops p with
    | error q =>
      rw [hp] at hagrees
      have hs : runAll (fun op => Storage.access owner (.op op)) ops s.beginTransaction.2 = .error q :=
        hagrees
      simp only [hs]
      exact rfl
    | ok r =>
      rw [hp] at hagrees
      obtain ⟨s1,hs1,hshows1⟩ := hagrees
      have hrun : runAll (fun op => Storage.access owner (.op op)) ops s.beginTransaction.2 =
        .ok (r.1,s1) := hs1
      have hwithin := (hbegin.ok.accessAll_txn rfl ((runAll_map _ _ ops _).trans hrun)).1
      have hid : s1.txnId = s.nextTxn := hwithin.txnId
      obtain ⟨s2,hs2,hcommitted⟩ := hshows1.ok.commitTransaction hwithin.pending
      have hdrop : s2.rollbackTransaction s1.txnId = .ok s2 := by
        simp [Storage.rollbackTransaction,hcommitted.pending]
      simp only [hrun,bind_of_ok,Item.finish,← hid,hs2,hdrop]
      exact ⟨s2,rfl,hshows1.commit hcommitted,hcommitted.pending⟩

theorem showsQuiet_new : Storage.ShowsQuiet (Storage.new : Storage S) Plain.new := by
  refine ⟨⟨Item.sameBase_new.left,rfl,fun τ => ⟨Table.ok_empty 1,?_,rfl⟩⟩,rfl⟩
  funext k
  rfl

theorem run_eq_error {item : PlainItem S R} {q : Panic} (h : item.run p = .error q) :
    ∃ prev owner, q = Table.violation prev owner := by
  cases item with
  | raw owner op =>
    rcases bind_eq_error.mp h with h | ⟨r,-,h⟩
    · exact Plain.op_eq_error h
    · cases h
  | txn owner ops =>
    rcases bind_eq_error.mp h with h | ⟨r,-,h⟩
    · exact runAll_eq_error (fun op p q => Plain.op_eq_error) h
    · cases h

/-- A run of calls, and of transactions that commit, returns what it returns on plain maps; the only
panics are violations of ownership; and reads of whole tables agree with each other, outside of
transactions and inside of one. -/
theorem store_refines_maps (items : List (PlainItem S R)) :
    Prod.fst <$> runAll Item.run (items.map item) Storage.new =
      Prod.fst <$> runAll run items (Plain.new : Plain S) ∧
    (∀ q, runAll Item.run (items.map item) (Storage.new : Storage S) = .error q →
      ∃ prev owner, q = Table.violation prev owner) ∧
    ∀ rss s, runAll Item.run (items.map item) (Storage.new : Storage S) = .ok (rss,s) →
      (∀ τ, (s.tables τ).ReadsAgree s.txnId) ∧
      ∀ owner (ops : List (Op S R)) rs s', runAll (Storage.op owner) ops s.beginTransaction.2 = .ok (rs,s') →
        ∀ τ, (s'.tables τ).ReadsAgree s'.txnId := by
  have hagrees : Agrees Storage.ShowsQuiet (runAll Item.run (items.map item) Storage.new)
      (runAll run items Plain.new) := by
    rw [runAll_map]
    exact runAll_agrees (fun item s p hrel => run_agrees item hrel) items showsQuiet_new
  refine ⟨hagrees.map_fst,fun q hq => ?_,fun rss s hs => ?_⟩
  · cases hp : runAll run items (Plain.new : Plain S) with
    | error q' =>
      rw [hp] at hagrees
      have heq : q = q' := by
        have hq' : runAll Item.run (items.map item) (Storage.new : Storage S) = .error q' := hagrees
        rw [hq] at hq'
        exact Except.error.inj hq'
      subst heq
      exact runAll_eq_error (fun item p q => run_eq_error) hp
    | ok r =>
      rw [hp,hq] at hagrees
      obtain ⟨s,hs,-⟩ := hagrees
      cases hs
  · cases hp : runAll run items (Plain.new : Plain S) with
    | error q =>
      rw [hp,hs] at hagrees
      cases hagrees
    | ok r =>
      rw [hp,hs] at hagrees
      obtain ⟨s1,hs1,hshows,hnone⟩ := hagrees
      cases hs1
      refine ⟨fun τ => (hshows.ok.tables τ).readsAgree,fun owner ops rs s' hs' τ => ?_⟩
      have hops := runAll_agrees (fun op s p hrel => Storage.Shows.op hrel owner op) ops
        (hshows.begin hnone)
      cases hp' : runAll (Plain.op owner) ops r.2 with
      | error q =>
        rw [hp',hs'] at hops
        cases hops
      | ok r' =>
        rw [hp',hs'] at hops
        obtain ⟨s2,hs2,hshows'⟩ := hops
        cases hs2
        exact (hshows'.ok.tables τ).readsAgree

section
attribute [local instance] Table.neZero_three

/-- Two owners write to one table. -/
def twoOwners : List (PlainItem Item.smallSchema Unit) :=
  let put (k : Fin 3) : Op Item.smallSchema Unit := .table () (.write (.insert k k))
  [raw "a" (put 0),raw "b" (put 1)]

/-- The second owner fails the assertion on owners. -/
theorem second_owner_panics :
    Result.panic (runAll Item.run (twoOwners.map item) Storage.new) = some (Table.violation "a" "b") := by
  decide +kernel

end
end PlainItem
end Tailnet.KvStore
