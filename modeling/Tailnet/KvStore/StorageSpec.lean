import Tailnet.KvStore.Calls

/-! The store in and outside of a transaction: its invariant, and stores that show the same. -/
namespace Tailnet.KvStore
open Function Option
namespace Storage
variable {S : Schema} {R : Type} {s s' : Storage S}

/-- The single values that a transaction sees, with their owners. -/
def sinAt (t : TxnId) (m : Assoc S.Singleton (Owner × VersionedValue (Option S.SinValue)))
    (key : S.Singleton) : Option (Owner × Option S.SinValue) :=
  (m.get key).bind fun e => (e.2.get t).map fun v => (e.1,v)

structure Ok (s : Storage S) : Prop where
  singletons : ∀ key e, s.singletons.get key = some e →
    e.2.Within s.committed s.txnId ∧ e.2.isEmpty = false
  tables : ∀ τ, (s.tables τ).Ok s.committed s.txnId
  next : s.committed < s.nextTxn
  pending : ∀ id modified, s.pendingTxn = some (id,modified) → s.committed < id ∧ id < s.nextTxn
  recorded : ∀ id modified, s.pendingTxn = some (id,modified) →
    ∀ key e, s.singletons.get key = some e → id ∈ e.2.ids → key ∈ modified

/-- The transaction knows all rows that it has written. -/
def Recorded (s : Storage S) : Prop := ∀ τ, (s.tables τ).Recorded s.committed s.txnId

theorem txnId_of_none (h : s.pendingTxn = none) : s.txnId = s.committed := by
  simp [txnId,h]

theorem txnId_of_some {id : TxnId} {modified : List S.Singleton} (h : s.pendingTxn = some (id,modified)) :
    s.txnId = id := by
  simp [txnId,h]

theorem Ok.lt_iff (h : s.Ok) : decide (s.committed < s.txnId) = s.pendingTxn.isSome := by
  cases hp : s.pendingTxn with
  | none => simp [txnId_of_none hp]
  | some p => simp [txnId_of_some hp,(h.pending p.1 p.2 hp).1]

theorem Ok.le (h : s.Ok) : s.committed ≤ s.txnId := by
  cases hp : s.pendingTxn with
  | none => exact (txnId_of_none hp).ge
  | some p =>
    rw [txnId_of_some hp]
    exact (h.pending p.1 p.2 hp).1.le

theorem Ok.recorded_of_none (h : s.pendingTxn = none) : s.Recorded := by
  have heq := txnId_of_none h
  exact fun τ => ⟨fun hlt => absurd hlt (by rw [heq]; exact lt_irrefl _),
    fun i hlt => absurd hlt (by rw [heq]; exact lt_irrefl _)⟩

theorem Ok.getSingletonValue (_h : s.Ok) (key : S.Singleton) :
    s.getSingletonValue key s.txnId = (sinAt s.txnId s.singletons key).bind Prod.snd := by
  cases hk : s.singletons.get key with
  | none => simp [Storage.getSingletonValue,sinAt,hk]
  | some e => cases hv : e.2.get s.txnId <;> simp [Storage.getSingletonValue,sinAt,hk,hv]

theorem Ok.getSingletonOwner (h : s.Ok) (key : S.Singleton) :
    s.getSingletonOwner key = (sinAt s.txnId s.singletons key).map Prod.fst := by
  cases hk : s.singletons.get key with
  | none => simp [Storage.getSingletonOwner,sinAt,hk]
  | some e =>
    obtain ⟨hwithin,hne⟩ := h.singletons key e hk
    obtain ⟨v,hv⟩ := isSome_iff_exists.mp (hwithin.get_isSome h.le hne)
    simp [Storage.getSingletonOwner,sinAt,hk,hv]

theorem assertOwner_eq (owner : Owner) (key : S.Singleton) (s : Storage S) :
    s.assertOwner owner key = (fun _ => ()) <$> claimOwner false owner (s.getSingletonOwner key) := by
  cases hk : s.getSingletonOwner key with
  | none => simp [assertOwner,hk,claimOwner]
  | some prev => by_cases h : prev = owner <;> simp [assertOwner,hk,claimOwner,h]

/-- The store with a key in the list of the transaction, if there is one. -/
def noted (key : S.Singleton) (s : Storage S) : Storage S :=
  { s with pendingTxn := s.pendingTxn.map fun p => (p.1,p.2 ++ [key]) }

@[simp] theorem txnId_noted (key : S.Singleton) (s : Storage S) : (s.noted key).txnId = s.txnId := by
  cases hp : s.pendingTxn <;> simp [noted,txnId,hp]

theorem Ok.recordMutation (h : s.Ok) (key : S.Singleton) :
    s.recordMutation key s.txnId = .ok (s.noted key) := by
  cases hp : s.pendingTxn with
  | none =>
    have hsame : s.noted key = s := by
      obtain ⟨_,_,_,pending,_⟩ := s
      cases hp
      rfl
    rw [hsame]
    simp [Storage.recordMutation,txnId_of_none hp]
  | some p =>
    have hlt := (h.pending p.1 p.2 hp).1
    simp [Storage.recordMutation,txnId_of_some hp,hp,hlt.ne,noted]

variable {key : S.Singleton}

theorem sinAt_update {m m' : Assoc S.Singleton (Owner × VersionedValue (Option S.SinValue))} {e : Owner × VersionedValue (Option S.SinValue)} {t : TxnId}
    (h : m'.get = update m.get key (some e)) :
    sinAt t m' = update (sinAt t m) key ((e.2.get t).map fun v => (e.1,v)) := by
  funext key'
  by_cases hk : key' = key
  · subst hk
    simp [sinAt,h]
  · simp [sinAt,h,hk]

variable {m : Assoc S.Singleton (Owner × VersionedValue (Option S.SinValue))}

theorem Ok.setSingleton (h : s.Ok) {owner : Owner}
    {v : VersionedValue (Option S.SinValue)} (hwithin : v.Within s.committed s.txnId)
    (hold : (v.get s.committed).map (fun x => (owner,x)) = sinAt s.committed s.singletons key)
    (x : Option S.SinValue)
    (hget : m.get = update s.singletons.get key (some (owner,v.set x s.txnId))) :
    ({ s.noted key with singletons := m } : Storage S).Ok ∧
      sinAt s.txnId m = update (sinAt s.txnId s.singletons) key (some (owner,x)) ∧
      sinAt s.committed m = if s.pendingTxn.isSome then sinAt s.committed s.singletons else
        update (sinAt s.committed s.singletons) key (some (owner,x)) := by
  have htxn : ({ s.noted key with singletons := m } : Storage S).txnId = s.txnId := txnId_noted key s
  have hseen : sinAt s.txnId m = update (sinAt s.txnId s.singletons) key (some (owner,x)) := by
    rw [sinAt_update hget,hwithin.get_set x]
    rfl
  refine ⟨⟨fun key' e he => ?_,?_,h.next,fun id modified hp => ?_,fun id modified hp key' e he hid => ?_⟩,
    hseen,?_⟩
  · rw [htxn]
    have he' : m.get key' = some e := he
    rw [hget] at he'
    by_cases hk : key' = key
    · subst hk
      rw [update_self] at he'
      cases he'
      exact ⟨hwithin.set x,VersionedValue.isEmpty_set v x _⟩
    · rw [update_of_ne hk] at he'
      exact h.singletons key' e he'
  · rw [htxn]
    exact h.tables
  · obtain ⟨p,hp',heq⟩ := map_eq_some_iff.mp hp
    cases heq
    exact h.pending p.1 p.2 hp'
  · obtain ⟨p,hp',heq⟩ := map_eq_some_iff.mp hp
    cases heq
    have he' : m.get key' = some e := he
    rw [hget] at he'
    by_cases hk : key' = key
    · subst hk
      exact List.mem_append_right p.2 (List.mem_singleton_self key')
    · rw [update_of_ne hk] at he'
      exact List.mem_append_left [key] (h.recorded p.1 p.2 hp' key' e he' hid)
  · cases hp : s.pendingTxn with
    | none =>
      rw [txnId_of_none hp] at hseen
      simpa [txnId_of_none hp] using hseen
    | some p =>
      have hlt := (h.pending p.1 p.2 hp).1
      rw [← txnId_of_some hp] at hlt
      rw [sinAt_update hget,hwithin.get_set_committed hlt,hold,update_eq_self]
      rfl

/-- A store after a write to its single values. -/
structure Wrote (s s' : Storage S) (key : S.Singleton) (e : Option (Owner × Option S.SinValue)) :
    Prop where
  ok : s'.Ok
  txnId : s'.txnId = s.txnId
  committed : s'.committed = s.committed
  tables : s'.tables = s.tables
  pending : s'.pendingTxn.isSome = s.pendingTxn.isSome
  seen : sinAt s.txnId s'.singletons = update (sinAt s.txnId s.singletons) key e
  base : sinAt s.committed s'.singletons = if s.pendingTxn.isSome then sinAt s.committed s.singletons else
    update (sinAt s.committed s.singletons) key e

theorem Ok.wrote (h : s.Ok) {owner : Owner}
    {v : VersionedValue (Option S.SinValue)} (hwithin : v.Within s.committed s.txnId)
    (hold : (v.get s.committed).map (fun x => (owner,x)) = sinAt s.committed s.singletons key)
    (x : Option S.SinValue)
    (hget : m.get = update s.singletons.get key (some (owner,v.set x s.txnId))) :
    Wrote s { s.noted key with singletons := m } key (some (owner,x)) := by
  obtain ⟨hok,hseen,hbase⟩ := h.setSingleton hwithin hold x hget
  exact ⟨hok,txnId_noted key s,rfl,rfl,by simp [noted],hseen,hbase⟩

theorem Ok.noted_of_none (h : s.Ok) (hk : s.singletons.get key = none)
    (hget : m.get = s.singletons.get) : Wrote s { s.noted key with singletons := m } key none := by
  have htxn : ({ s.noted key with singletons := m } : Storage S).txnId = s.txnId := txnId_noted key s
  have hsin : ∀ t, sinAt t m = sinAt t s.singletons := fun t => by
    funext key'
    simp [sinAt,hget]
  have hnone : ∀ t, update (sinAt t s.singletons) key none = sinAt t s.singletons := fun t => by
    have hkey : sinAt t s.singletons key = none := by simp [sinAt,hk]
    rw [← hkey,update_eq_self]
  refine ⟨⟨?_,?_,h.next,?_,?_⟩,htxn,rfl,rfl,by simp [noted],by rw [hsin,hnone],by simp [hsin,hnone]⟩
  · rw [htxn,hget]
    exact h.singletons
  · rw [htxn]
    exact h.tables
  · intro id modified hp
    obtain ⟨p,hp',heq⟩ := map_eq_some_iff.mp hp
    cases heq
    exact h.pending p.1 p.2 hp'
  · intro id modified hp key' e he hid
    obtain ⟨p,hp',heq⟩ := map_eq_some_iff.mp hp
    cases heq
    rw [hget] at he
    exact List.mem_append_left [key] (h.recorded p.1 p.2 hp' key' e he hid)

theorem Ok.insertSingleton (h : s.Ok) (key : S.Singleton) (owner : Owner) (value : S.SinValue) :
    ∃ s', s.insertSingleton key owner value s.txnId = .ok s' ∧
      Wrote s s' key (some (((s.getSingletonOwner key).getD owner),some value)) := by
  have hrec := h.recordMutation key
  cases hk : s.singletons.get key with
  | none =>
    have hget : (s.singletons.insert key (owner,.new (some value) s.txnId)).get =
        update s.singletons.get key (some (owner,VersionedValue.empty.set (some value) s.txnId)) :=
      Assoc.get_insert_eq _ _ _
    have hwrote := h.wrote VersionedValue.within_empty (by simp [sinAt,hk,VersionedValue.get])
      (some value) hget
    exact ⟨_,by simp [Storage.insertSingleton,hrec,noted,hk]; rfl,
      by rw [Storage.getSingletonOwner,hk]; exact hwrote⟩
  | some e =>
    obtain ⟨hwithin,hne⟩ := h.singletons key e hk
    have hget : (s.singletons.adjust key fun e => (e.1,e.2.set (some value) s.txnId)).get =
        update s.singletons.get key (some (e.1,e.2.set (some value) s.txnId)) := by
      funext key'
      rw [Assoc.get_adjust,hk,map_some,update_apply]
    have hwrote := h.wrote hwithin (by simp [sinAt,hk]) (some value) hget
    exact ⟨_,by simp [Storage.insertSingleton,hrec,noted,hk]; rfl,
      by rw [Storage.getSingletonOwner,hk]; exact hwrote⟩

theorem Ok.removeSingleton (h : s.Ok) (key : S.Singleton) :
    ∃ s', s.removeSingleton key s.txnId = .ok s' ∧
      Wrote s s' key ((s.getSingletonOwner key).map fun owner => (owner,none)) := by
  have hrec := h.recordMutation key
  cases hk : s.singletons.get key with
  | none =>
    -- there is nothing to write to
    have hget : (s.singletons.adjust key fun e => (e.1,e.2.set none s.txnId)).get = s.singletons.get := by
      funext key'
      rw [Assoc.get_adjust,hk]
      by_cases heq : key' = key
      · simp [heq,hk]
      · simp [heq]
    exact ⟨_,by simp [Storage.removeSingleton,hrec]; rfl,
      by rw [Storage.getSingletonOwner,hk]; exact h.noted_of_none hk hget⟩
  | some e =>
    obtain ⟨hwithin,hne⟩ := h.singletons key e hk
    have hget : (s.singletons.adjust key fun e => (e.1,e.2.set none s.txnId)).get =
        update s.singletons.get key (some (e.1,e.2.set none s.txnId)) := by
      funext key'
      rw [Assoc.get_adjust,hk,map_some,update_apply]
    have hwrote := h.wrote hwithin (by simp [sinAt,hk]) none hget
    exact ⟨_,by simp [Storage.removeSingleton,hrec]; rfl,
      by rw [Storage.getSingletonOwner,hk]; exact hwrote⟩

theorem Ok.setTable (h : s.Ok) (τ : S.Tab) {T : Table (S.desc τ)} (hT : T.Ok s.committed s.txnId) :
    ({ s with tables := update s.tables τ T } : Storage S).Ok := by
  refine ⟨h.singletons,fun τ' => ?_,h.next,h.pending,h.recorded⟩
  change (update s.tables τ T τ').Ok s.committed s.txnId
  by_cases hτ : τ' = τ
  · subst hτ
    simpa using hT
  · simpa [update_of_ne hτ] using h.tables τ'

/-- Two stores show the same. -/
structure Same (s s' : Storage S) : Prop where
  left : s.Ok
  right : s'.Ok
  pending : s.pendingTxn.isSome = s'.pendingTxn.isSome
  base : sinAt s.committed s.singletons = sinAt s'.committed s'.singletons
  seen : sinAt s.txnId s.singletons = sinAt s'.txnId s'.singletons
  tables : ∀ τ, Table.Same s.committed s.txnId s'.committed s'.txnId (s.tables τ) (s'.tables τ)

theorem Same.inTxn (h : Same s s') :
    decide (s.committed < s.txnId) = decide (s'.committed < s'.txnId) := by
  rw [h.left.lt_iff,h.right.lt_iff,h.pending]

theorem Same.owner (h : Same s s') (key : S.Singleton) :
    s.getSingletonOwner key = s'.getSingletonOwner key := by
  rw [h.left.getSingletonOwner,h.right.getSingletonOwner,h.seen]

theorem Same.wrote (h : Same s s') {s1 s1' : Storage S}
    {e : Option (Owner × Option S.SinValue)} (h1 : Wrote s s1 key e) (h1' : Wrote s' s1' key e) :
    Same s1 s1' := by
  refine ⟨h1.ok,h1'.ok,?_,?_,?_,fun τ => ?_⟩
  · rw [h1.pending,h1'.pending,h.pending]
  · rw [h1.committed,h1'.committed,h1.base,h1'.base,h.base,h.pending]
  · rw [h1.txnId,h1'.txnId,h1.seen,h1'.seen,h.seen]
  · rw [h1.txnId,h1'.txnId,h1.committed,h1'.committed,h1.tables,h1'.tables]
    exact h.tables τ

theorem Same.setTable (h : Same s s') (τ : S.Tab) {T T' : Table (S.desc τ)}
    (hT : Table.Same s.committed s.txnId s'.committed s'.txnId T T') :
    Same { s with tables := update s.tables τ T }
      { s' with tables := update s'.tables τ T' } := by
  refine ⟨h.left.setTable τ hT.left,h.right.setTable τ hT.right,h.pending,h.base,h.seen,fun τ' => ?_⟩
  change Table.Same s.committed s.txnId s'.committed s'.txnId (update s.tables τ T τ')
    (update s'.tables τ T' τ')
  by_cases hτ : τ' = τ
  · subst hτ
    simpa using hT
  · simpa [update_of_ne hτ] using h.tables τ'

/-- Calls of stores that show the same return the same. -/
theorem Same.op (h : Same s s') (owner : Owner) (op : Op S R) :
    Agrees Same (s.op owner op) (s'.op owner op) := by
  cases op with
  | get key =>
    refine ⟨s,?_,h⟩
    rw [Storage.op,h.left.getSingletonValue,h.right.getSingletonValue,h.seen]
  | insert key value =>
    obtain ⟨s1,hs1,h1⟩ := h.left.insertSingleton key owner value
    obtain ⟨s1',hs1',h1'⟩ := h.right.insertSingleton key owner value
    rw [h.owner] at h1
    simp only [Storage.op,assertOwner_eq,h.owner,hs1,hs1']
    cases claimOwner false owner (s'.getSingletonOwner key) with
    | error p => exact rfl
    | ok o => exact ⟨s1,rfl,h.wrote h1 h1'⟩
  | remove key =>
    obtain ⟨s1,hs1,h1⟩ := h.left.removeSingleton key
    obtain ⟨s1',hs1',h1'⟩ := h.right.removeSingleton key
    rw [h.owner] at h1
    simp only [Storage.op,assertOwner_eq,h.owner,hs1,hs1']
    cases claimOwner false owner (s'.getSingletonOwner key) with
    | error p => exact rfl
    | ok o => exact ⟨s1,rfl,h.wrote h1 h1'⟩
  | table τ call =>
    refine (TableCall.same (h.tables τ) h.inTxn owner call).bind fun r T T' hT => ?_
    exact ⟨_,rfl,h.setTable τ hT⟩

theorem Same.access (h : Same s s') (owner : Owner) (a : Access S R) :
    Agrees Same (s.access owner a) (s'.access owner a) := by
  cases a with
  | op op => exact h.op owner op
  | lookup τ i x =>
    have himage := congrFun (congrArg TableImage.indexes (h.tables τ).image) i
    have hget := ((h.tables τ).left.indexes i).get x
    have hget' := ((h.tables τ).right.indexes i).get x
    have hview : ((s.tables τ).indexes i).image s.committed s.txnId =
        ((s'.tables τ).indexes i).image s'.committed s'.txnId := himage
    rw [hview] at hget
    simp only [Storage.access,hget,hget']
    exact ⟨s,rfl,h⟩
  | getBy τ i x =>
    have hget := (h.tables τ).left.getBy i x
    have hget' := (h.tables τ).right.getBy i x
    rw [(h.tables τ).image] at hget
    simp only [Storage.access,hget,hget']
    exact ⟨s,rfl,h⟩

end Storage
end Tailnet.KvStore
