import Tailnet.KvStore.StorageSpec

/-! Rollback leaves no trace. A transaction that is rolled back or abandoned leaves the store as if it
had never begun, if it has not iterated a table for writing after deleting rows of it, and has not
given a table its owner. -/
namespace Tailnet.KvStore
open Result Option
namespace Storage
variable {S : Schema} {R : Type} {s s' : Storage S}

theorem Ok.begin (h : s.Ok) (hnone : s.pendingTxn = none) :
    s.beginTransaction.2.Ok ∧ s.beginTransaction.2.Recorded ∧
      sinAt s.nextTxn s.singletons = sinAt s.committed s.singletons ∧
      ∀ τ, (s.tables τ).image s.committed s.nextTxn = (s.tables τ).image s.committed s.committed := by
  have heq := txnId_of_none hnone
  have hsin := h.singletons
  have htables := h.tables
  rw [heq] at hsin htables
  have hbegin := fun τ => (htables τ).begin h.next.le
  refine ⟨⟨fun key e he => ⟨(hsin key e he).1.mono le_rfl,(hsin key e he).2⟩,fun τ => (hbegin τ).1,
    h.next.trans (Nat.lt_succ_self _),?_,?_⟩,fun τ => (hbegin τ).2.2,?_,fun τ => (hbegin τ).2.1⟩
  · rintro id modified ⟨⟩
    exact ⟨h.next,Nat.lt_succ_self _⟩
  · rintro id modified ⟨⟩ key e he hid
    -- no version is of the new transaction
    rcases (hsin key e he).1 _ hid with hle | heq'
    · exact absurd hle (not_le.mpr h.next)
    · exact absurd heq' h.next.ne'
  · funext key
    cases hk : s.singletons.get key with
    | none => simp [sinAt,hk]
    | some e => simp [sinAt,hk,(hsin key e hk).1.get_eq h.next.le]

theorem get_foldl_gcSingleton (t : TxnId) (keys : List S.Singleton)
    (m : Assoc S.Singleton (Owner × VersionedValue (Option S.SinValue))) (key : S.Singleton) :
    (keys.foldl (gcSingleton t) m).get key =
      if key ∈ keys then (m.get key).bind fun e => (e.2.collect t).map fun v => (e.1,v)
      else m.get key := by
  refine Assoc.get_foldl_revise (fun e e' he => ?_) keys m key
  obtain ⟨w,hw,rfl⟩ := map_eq_some_iff.mp he
  simp [VersionedValue.collect_collect _ _ hw]

/-- Single values without the versions of a transaction that knows them all are the committed ones. -/
theorem gcSingletons {m : Assoc S.Singleton (Owner × VersionedValue (Option S.SinValue))} {c t : TxnId}
    (h : ∀ key e, m.get key = some e → e.2.Within c t ∧ e.2.isEmpty = false) (hlt : c < t)
    {keys : List S.Singleton} (hkeys : ∀ key e, m.get key = some e → t ∈ e.2.ids → key ∈ keys) :
    (∀ key e, (keys.foldl (gcSingleton t) m).get key = some e → e.2.Within c c ∧ e.2.isEmpty = false) ∧
      sinAt c (keys.foldl (gcSingleton t) m) = sinAt c m := by
  refine ⟨fun key e he => ?_,funext fun key => ?_⟩
  · rw [get_foldl_gcSingleton] at he
    split at he
    · obtain ⟨e0,he0,hmap⟩ := bind_eq_some_iff.mp he
      obtain ⟨v,hv,rfl⟩ := map_eq_some_iff.mp hmap
      obtain ⟨rfl,hne⟩ := VersionedValue.collect_eq_some.mp hv
      exact ⟨(h key e0 he0).1.gcTxn,hne⟩
    · rename_i hk
      exact ⟨(h key e he).1.of_notMem fun hmem => hk (hkeys key e he hmem),(h key e he).2⟩
  · rw [sinAt,get_foldl_gcSingleton,sinAt]
    split
    · cases hv : m.get key with
      | none => rfl
      | some e =>
        have hcollect := (h key e hv).1.get_collect hlt
        cases hc : e.2.collect t with
        | none =>
          rw [hc] at hcollect
          simp [hc,← hcollect]
        | some w =>
          rw [hc] at hcollect
          simp [hc,← hcollect]
    · rfl

/-- A store after its transaction is dropped. -/
structure Cleared (s s' : Storage S) : Prop where
  ok : s'.Ok
  pending : s'.pendingTxn = none
  committed : s'.committed = s.committed
  singletons : sinAt s.committed s'.singletons = sinAt s.committed s.singletons
  tables : ∀ τ, (s'.tables τ).image s.committed s.committed =
    ((s.tables τ).image s.committed s.txnId).gc
  owner : ∀ τ, (s'.tables τ).owner = (s.tables τ).owner

theorem Ok.clearTransaction (h : s.Ok) (hrec : s.Recorded) :
    ∃ s', s.clearTransaction = .ok s' ∧ Cleared s s' := by
  cases hp : s.pendingTxn with
  | none =>
    have heq := txnId_of_none hp
    refine ⟨s,by simp [Storage.clearTransaction,hp],h,hp,rfl,rfl,fun τ => ?_,fun _ => rfl⟩
    have hok := h.tables τ
    rw [heq] at hok ⊢
    exact hok.gc_image.symm
  | some p =>
    obtain ⟨id,modified⟩ := p
    have hid : s.txnId = id := txnId_of_some hp
    obtain ⟨hlt,hnext⟩ := h.pending id modified hp
    have hsin := h.singletons
    have htables := h.tables
    have hrecs : ∀ τ, (s.tables τ).Recorded s.committed s.txnId := hrec
    rw [hid] at hsin htables hrecs
    choose tables hgc hok himage howner using fun τ => (htables τ).gcTxn hlt (hrecs τ)
    have hall := mapFamily_eq S.nodup S.complete hgc
    obtain ⟨hsin',hseen⟩ := gcSingletons hsin hlt (h.recorded id modified hp)
    let s' : Storage S :=
      ⟨modified.foldl (gcSingleton id) s.singletons,tables,s.committed,none,s.nextTxn⟩
    have hok' : s'.Ok := ⟨hsin',hok,h.next,by simp [s'],by simp [s']⟩
    refine ⟨s',by simp [Storage.clearTransaction,hp,hall,s'],hok',rfl,rfl,hseen,fun τ => ?_,howner⟩
    rw [hid]
    exact himage τ

structure Committed (s s' : Storage S) : Prop where
  ok : s'.Ok
  pending : s'.pendingTxn = none
  committed : s'.committed = s.txnId
  singletons : sinAt s.txnId s'.singletons = sinAt s.txnId s.singletons
  tables : ∀ τ, (s'.tables τ).image s.txnId s.txnId =
    ((s.tables τ).image s.committed s.txnId).commit
  owner : ∀ τ, (s'.tables τ).owner = (s.tables τ).owner

theorem Ok.commitTransaction (h : s.Ok) (hpending : s.pendingTxn.isSome = true) :
    ∃ s', s.commitTransaction s.txnId = .ok (true,s') ∧ Committed s s' := by
  obtain ⟨⟨id,modified⟩,hp⟩ := isSome_iff_exists.mp hpending
  have hid : s.txnId = id := txnId_of_some hp
  obtain ⟨hlt,hnext⟩ := h.pending id modified hp
  choose tables hcommit hok himage howner using fun τ => (h.tables τ).commitTxn
  have hall := mapFamily_eq S.nodup S.complete hcommit
  have hcheck : (S.names.all fun τ => (s.tables τ).checkTxnConsistency s.txnId) = true :=
    List.all_eq_true.mpr fun τ _ => (h.tables τ).check
  let s' : Storage S := ⟨s.singletons,tables,s.txnId,none,s.nextTxn⟩
  have hok' : s'.Ok := by
    refine ⟨fun key e he => ?_,hok,by simpa [s',hid] using hnext,by simp [s'],by simp [s']⟩
    obtain ⟨hwithin,hne⟩ := h.singletons key e he
    exact ⟨hwithin.committed h.le,hne⟩
  refine ⟨s',?_,hok',rfl,rfl,rfl,himage,howner⟩
  simp [Storage.commitTransaction,hp,hid.symm,commitTables,hcheck,hall,s']

variable {owner : Owner} {a : Access S R}

theorem Ok.access_pending (h : s.Ok) {r : Reply S R}
    (hrun : s.access owner a = .ok (r,s')) : s'.pendingTxn.isSome = s.pendingTxn.isSome := by
  cases a with
  | lookup τ i x =>
    obtain ⟨k,-,hrest⟩ := bind_eq_ok.mp hrun
    cases hrest
    rfl
  | getBy τ i x =>
    obtain ⟨v,-,hrest⟩ := bind_eq_ok.mp hrun
    cases hrest
    rfl
  | op op =>
    cases op with
    | get key =>
      cases hrun
      rfl
    | insert key value =>
      obtain ⟨-,-,hrest⟩ := bind_eq_ok.mp hrun
      obtain ⟨s₁,hs₁,hwrote⟩ := h.insertSingleton key owner value
      rw [hs₁] at hrest
      cases hrest
      exact hwrote.pending
    | remove key =>
      obtain ⟨-,-,hrest⟩ := bind_eq_ok.mp hrun
      obtain ⟨s₁,hs₁,hwrote⟩ := h.removeSingleton key
      rw [hs₁] at hrest
      cases hrest
      exact hwrote.pending
    | table τ call =>
      obtain ⟨⟨r',T⟩,-,hrest⟩ := bind_eq_ok.mp hrun
      cases hrest
      rfl

/-- What a transaction may do so that it can be dropped without a trace. -/
def Traceless (s : Storage S) : Access S R → Prop
  | .op (.table τ call) => call.Traceless (s.tables τ).owner (s.tables τ).rows.deleteMask
  | _ => True

/-- A store after calls of its transaction: what is committed is as it was. -/
structure Within (s s' : Storage S) : Prop where
  ok : s'.Ok
  txnId : s'.txnId = s.txnId
  committed : s'.committed = s.committed
  pending : s'.pendingTxn.isSome = s.pendingTxn.isSome
  singletons : sinAt s.committed s'.singletons = sinAt s.committed s.singletons
  tables : ∀ τ, ((s'.tables τ).image s.committed s.txnId).gc = ((s.tables τ).image s.committed s.txnId).gc

theorem Within.refl (h : s.Ok) : Within s s := ⟨h,rfl,rfl,rfl,rfl,fun _ => rfl⟩

theorem Within.trans {s'' : Storage S} (h : Within s s') (h' : Within s' s'') : Within s s'' := by
  refine ⟨h'.ok,h'.txnId.trans h.txnId,h'.committed.trans h.committed,h'.pending.trans h.pending,?_,
    fun τ => ?_⟩
  · have hsin := h'.singletons
    rw [h.committed] at hsin
    exact hsin.trans h.singletons
  · have htables := h'.tables τ
    rw [h.committed,h.txnId] at htables
    exact htables.trans (h.tables τ)

theorem Wrote.within {key : S.Singleton} {e : Option (Owner × Option S.SinValue)}
    (hpending : s.pendingTxn.isSome = true) (h : Wrote s s' key e) : Within s s' := by
  refine ⟨h.ok,h.txnId,h.committed,h.pending,?_,fun τ => by rw [h.tables]⟩
  rw [h.base,if_pos hpending]

/-- The owners of the tables are as they were, and the rows are known. -/
def Untraced (s s' : Storage S) : Prop :=
  (∀ τ, (s'.tables τ).owner = (s.tables τ).owner) ∧ (s.Recorded → s'.Recorded)

theorem Wrote.untraced {key : S.Singleton} {e : Option (Owner × Option S.SinValue)}
    (h : Wrote s s' key e) : Untraced s s' := by
  refine ⟨fun τ => by rw [h.tables],fun hrec τ => ?_⟩
  rw [h.tables,h.committed,h.txnId]
  exact hrec τ

theorem Ok.access_txn (h : s.Ok) (hpending : s.pendingTxn.isSome = true) {r : Reply S R} (hrun : s.access owner a = .ok (r,s')) :
    Within s s' ∧ (s.Traceless a → Untraced s s') := by
  have hsame : s' = s → Within s s' ∧ (s.Traceless a → Untraced s s') := by
    rintro rfl
    exact ⟨.refl h,fun _ => ⟨fun _ => rfl,id⟩⟩
  cases a with
  | lookup τ i x =>
    obtain ⟨k,-,hrest⟩ := bind_eq_ok.mp hrun
    cases hrest
    exact hsame rfl
  | getBy τ i x =>
    obtain ⟨v,-,hrest⟩ := bind_eq_ok.mp hrun
    cases hrest
    exact hsame rfl
  | op op =>
    cases op with
    | get key =>
      cases hrun
      exact hsame rfl
    | insert key value =>
      obtain ⟨-,-,hrest⟩ := bind_eq_ok.mp hrun
      obtain ⟨s₁,hs₁,hwrote⟩ := h.insertSingleton key owner value
      rw [hs₁] at hrest
      cases hrest
      exact ⟨hwrote.within hpending,fun _ => hwrote.untraced⟩
    | remove key =>
      obtain ⟨-,-,hrest⟩ := bind_eq_ok.mp hrun
      obtain ⟨s₁,hs₁,hwrote⟩ := h.removeSingleton key
      rw [hs₁] at hrest
      cases hrest
      exact ⟨hwrote.within hpending,fun _ => hwrote.untraced⟩
    | table τ call =>
      obtain ⟨⟨r',T⟩,hT,hrest⟩ := bind_eq_ok.mp hrun
      cases hrest
      have hlt : s.committed < s.txnId := by
        have hdecide := h.lt_iff
        rw [hpending] at hdecide
        exact of_decide_eq_true hdecide
      obtain ⟨hok,hgc,htrace⟩ := TableCall.run_txn (h.tables τ) hlt hT
      refine ⟨⟨h.setTable τ hok,rfl,rfl,rfl,rfl,fun τ' => ?_⟩,fun hno => ⟨fun τ' => ?_,fun hrec τ' => ?_⟩⟩
      · by_cases hτ : τ' = τ
        · subst hτ
          simpa using hgc
        · simp [Function.update_of_ne hτ]
      · by_cases hτ : τ' = τ
        · subst hτ
          simpa using (htrace hno).1
        · simp [Function.update_of_ne hτ]
      · change (Function.update s.tables τ T τ').Recorded s.committed s.txnId
        by_cases hτ : τ' = τ
        · subst hτ
          simpa using (htrace hno).2 (hrec τ')
        · simpa [Function.update_of_ne hτ] using hrec τ'

theorem Ok.accessAll_txn (h : s.Ok) (hpending : s.pendingTxn.isSome = true)
    {as : List (Access S R)} {rs : List (Reply S R)}
    (hrun : runAll (Storage.access owner) as s = .ok (rs,s')) :
    Within s s' ∧ (AtEveryCall (Storage.access owner) Traceless as s → Untraced s s') := by
  induction as generalizing s rs with
  | nil =>
    cases hrun
    exact ⟨.refl h,fun _ => ⟨fun _ => rfl,id⟩⟩
  | cons a as ih =>
    obtain ⟨r,s₁,rs',hs₁,hs2,-⟩ := runAll_cons_eq_ok hrun
    obtain ⟨hwithin1,htrace1⟩ := h.access_txn hpending hs₁
    obtain ⟨hwithin2,htrace2⟩ := ih hwithin1.ok (hwithin1.pending.trans hpending) hs2
    refine ⟨hwithin1.trans hwithin2,fun hcalls => ?_⟩
    obtain ⟨howner1,hrec1⟩ := htrace1 hcalls.1
    obtain ⟨howner2,hrec2⟩ := htrace2 ((forall_step_iff hs₁).mp hcalls.2)
    exact ⟨fun τ => (howner2 τ).trans (howner1 τ),hrec2 ∘ hrec1⟩

/-- Two stores have the same committed state, and know the rows that a transaction has written. -/
structure SameBase (s s' : Storage S) : Prop where
  left : s.Ok
  leftRecorded : s.Recorded
  right : s'.Ok
  rightRecorded : s'.Recorded
  singletons : sinAt s.committed s.singletons = sinAt s'.committed s'.singletons
  tables : ∀ τ, ((s.tables τ).image s.committed s.txnId).gc = ((s'.tables τ).image s'.committed s'.txnId).gc
  owner : ∀ τ, (s.tables τ).owner = (s'.tables τ).owner

theorem SameBase.symm (h : SameBase s s') : SameBase s' s :=
  ⟨h.right,h.rightRecorded,h.left,h.leftRecorded,h.singletons.symm,fun τ => (h.tables τ).symm,
    fun τ => (h.owner τ).symm⟩

theorem SameBase.trans {s'' : Storage S} (h : SameBase s s') (h' : SameBase s' s'') : SameBase s s'' :=
  ⟨h.left,h.leftRecorded,h'.right,h'.rightRecorded,h.singletons.trans h'.singletons,
    fun τ => (h.tables τ).trans (h'.tables τ),fun τ => (h.owner τ).trans (h'.owner τ)⟩

theorem Cleared.sameBase (hok : s.Ok) (hrec : s.Recorded) (h : Cleared s s') : SameBase s' s := by
  refine ⟨h.ok,Ok.recorded_of_none h.pending,hok,hrec,?_,fun τ => ?_,h.owner⟩
  · rw [h.committed,h.singletons]
  · rw [txnId_of_none h.pending,h.committed,h.tables τ]
    rfl

theorem Ok.sameBase_begin (h : s.Ok) (hnone : s.pendingTxn = none) : SameBase s.beginTransaction.2 s := by
  obtain ⟨hok,hrec,-,htables⟩ := h.begin hnone
  refine ⟨hok,hrec,h,Ok.recorded_of_none hnone,rfl,fun τ => ?_,fun _ => rfl⟩
  rw [txnId_of_none hnone,← htables τ]
  rfl

theorem Within.sameBase (hok : s.Ok) (hrec : s.Recorded) (h : Within s s') (htrace : Untraced s s') :
    SameBase s' s := by
  refine ⟨h.ok,htrace.2 hrec,hok,hrec,?_,fun τ => ?_,htrace.1⟩
  · rw [h.committed,h.singletons]
  · rw [h.committed,h.txnId,h.tables τ]

theorem Same.sameBase (h : Same s s') (hrec : s.Recorded) (hrec' : s'.Recorded) : SameBase s s' :=
  ⟨h.left,hrec,h.right,hrec',h.base,fun τ => congrArg TableImage.gc (h.tables τ).image,
    fun τ => (h.tables τ).owner⟩

/-- Stores outside of a transaction show what is committed. -/
theorem SameBase.same (h : SameBase s s') (hnone : s.pendingTxn = none) (hnone' : s'.pendingTxn = none) :
    Same s s' := by
  have heq := txnId_of_none hnone
  have heq' := txnId_of_none hnone'
  have hok := h.left.tables
  have hok' := h.right.tables
  have htables := h.tables
  rw [heq] at hok htables
  rw [heq'] at hok' htables
  refine ⟨h.left,h.right,by rw [hnone,hnone'],h.singletons,?_,fun τ => ?_⟩
  · rw [heq,heq']
    exact h.singletons
  · rw [heq,heq']
    refine ⟨hok τ,hok' τ,?_,h.owner τ⟩
    rw [← (hok τ).gc_image,← (hok' τ).gc_image]
    exact htables τ

theorem SameBase.clear (h : SameBase s s') : ∃ s₀ s0', s.clearTransaction = .ok s₀ ∧
    s'.clearTransaction = .ok s0' ∧ SameBase s₀ s ∧ SameBase s0' s' ∧ s₀.pendingTxn = none ∧
    s0'.pendingTxn = none ∧ Same s₀ s0' := by
  obtain ⟨s₀,hs₀,hcleared⟩ := h.left.clearTransaction h.leftRecorded
  obtain ⟨s0',hs0',hcleared'⟩ := h.right.clearTransaction h.rightRecorded
  have hbase := hcleared.sameBase h.left h.leftRecorded
  have hbase' := hcleared'.sameBase h.right h.rightRecorded
  exact ⟨s₀,s0',hs₀,hs0',hbase,hbase',hcleared.pending,hcleared'.pending,
    ((hbase.trans h).trans hbase'.symm).same hcleared.pending hcleared'.pending⟩

theorem Same.begin (h : Same s s') (hnone : s.pendingTxn = none) (hnone' : s'.pendingTxn = none) :
    Same s.beginTransaction.2 s'.beginTransaction.2 := by
  obtain ⟨hok,-,hseen,htables⟩ := h.left.begin hnone
  obtain ⟨hok',-,hseen',htables'⟩ := h.right.begin hnone'
  refine ⟨hok,hok',rfl,h.base,?_,fun τ => ⟨hok.tables τ,hok'.tables τ,?_,(h.tables τ).owner⟩⟩
  · exact hseen.trans (h.base.trans hseen'.symm)
  · have himage := (h.tables τ).image
    rw [txnId_of_none hnone,txnId_of_none hnone',← htables τ,← htables' τ] at himage
    exact himage

theorem Same.commit (h : Same s s') {s₁ s1' : Storage S} (h1 : Committed s s₁) (h1' : Committed s' s1') :
    Same s₁ s1' := by
  have heq := txnId_of_none h1.pending
  have heq' := txnId_of_none h1'.pending
  have hseen : sinAt s₁.committed s₁.singletons = sinAt s1'.committed s1'.singletons := by
    rw [h1.committed,h1'.committed,h1.singletons,h1'.singletons,h.seen]
  refine ⟨h1.ok,h1'.ok,by rw [h1.pending,h1'.pending],hseen,by rw [heq,heq',hseen],
    fun τ => ⟨h1.ok.tables τ,h1'.ok.tables τ,?_,?_⟩⟩
  · rw [heq,heq',h1.committed,h1'.committed,h1.tables τ,h1'.tables τ,(h.tables τ).image]
  · rw [h1.owner τ,h1'.owner τ,(h.tables τ).owner]

/-- The same calls are allowed on stores that show the same. -/
theorem Same.traceless (h : Same s s') (hno : s.Traceless a) : s'.Traceless a := by
  cases a with
  | lookup τ i x => trivial
  | getBy τ i x => trivial
  | op op =>
    cases op with
    | get key => trivial
    | insert key value => trivial
    | remove key => trivial
    | table τ call =>
      have howner := (h.tables τ).owner
      have hmask : Rows.maskImage s.txnId (s.tables τ).rows.deleteMask =
          Rows.maskImage s'.txnId (s'.tables τ).rows.deleteMask :=
        congrArg (fun i => i.rows.mask) (h.tables τ).image
      cases call with
      | init =>
        have hsome : (s.tables τ).owner.isSome = true := hno
        rw [howner] at hsome
        exact hsome
      | write w => exact fun hsets => howner ▸ hno hsets
      | forEachMut ord f x =>
        intro id removed hm
        cases hm0 : (s.tables τ).rows.deleteMask with
        | none => simp [hm0,hm,Rows.maskImage] at hmask
        | all id present => simp [hm0,hm,Rows.maskImage] at hmask
        | some id' removed' =>
          have heq : removed' = removed := by simpa [hm0,hm,Rows.maskImage] using hmask
          exact heq ▸ hno id' removed' hm0
      | get key => trivial
      | len => trivial
      | isEmpty => trivial
      | iter ord => trivial

theorem Same.tracelessAll (h : Same s s') {as : List (Access S R)}
    (hno : AtEveryCall (Storage.access owner) Traceless as s) :
    AtEveryCall (Storage.access owner) Traceless as s' := by
  induction as generalizing s s' with
  | nil => trivial
  | cons a as ih =>
    refine ⟨h.traceless hno.1,fun r s1' hs1' => ?_⟩
    have hagrees := h.access owner a
    rw [hs1'] at hagrees
    obtain ⟨s₁,hs₁,hsame⟩ := hagrees
    exact ih hsame (hno.2 r s₁ hs₁)

end Storage

namespace Item
variable {S : Schema} {R : Type} {s s' : Storage S}

/-- A transaction that does not commit can be dropped without a trace. -/
def Traceless (s : Storage S) : Item S R → Prop
  | raw _ _ => True
  | txn owner as finish => finish ≠ .commit → ∀ s₀, s.clearTransaction = .ok s₀ →
      AtEveryCall (Storage.access owner) Storage.Traceless as s₀.beginTransaction.2

theorem run_txn_eq {s₀ : Storage S} (h : s.clearTransaction = .ok s₀) (owner : Owner)
    (as : List (Access S R)) (finish : Finish) :
    (txn owner as finish).run s = (do
      let (rs,s₁) ← runAll (Storage.access owner) as s₀.beginTransaction.2
      Item.finish s₀.nextTxn rs s₁ finish) := by
  rw [run,h]
  rfl

theorem rollback_eq {id : TxnId} (h : s.txnId = id) (hpending : s.pendingTxn.isSome = true) :
    s.rollbackTransaction id = s.clearTransaction := by
  obtain ⟨p,hp⟩ := isSome_iff_exists.mp hpending
  have hid : p.1 = id := (Storage.txnId_of_some hp).symm.trans h
  simp [Storage.rollbackTransaction,hp,hid]

theorem same_finish (h : Storage.Same s s') (hpending : s.pendingTxn.isSome = true)
    (rs : List (Reply S R)) (finish : Finish)
    (hrec : finish ≠ .commit → s.Recorded ∧ s'.Recorded) :
    Agrees Storage.SameBase (Item.finish s.txnId rs s finish) (Item.finish s'.txnId rs s' finish) := by
  have hpending' : s'.pendingTxn.isSome = true := h.pending ▸ hpending
  cases finish with
  | commit =>
    obtain ⟨s₁,hs₁,hcommitted⟩ := h.left.commitTransaction hpending
    obtain ⟨s1',hs1',hcommitted'⟩ := h.right.commitTransaction hpending'
    have hdrop : s₁.rollbackTransaction s.txnId = .ok s₁ := by
      simp [Storage.rollbackTransaction,hcommitted.pending]
    have hdrop' : s1'.rollbackTransaction s'.txnId = .ok s1' := by
      simp [Storage.rollbackTransaction,hcommitted'.pending]
    simp only [Item.finish,hs₁,hs1',bind_of_ok,hdrop,hdrop']
    exact ⟨s₁,rfl,(h.commit hcommitted hcommitted').sameBase
      (Storage.Ok.recorded_of_none hcommitted.pending) (Storage.Ok.recorded_of_none hcommitted'.pending)⟩
  | rollback =>
    obtain ⟨hr,hr'⟩ := hrec (by decide)
    obtain ⟨s₀,s0',hs₀,hs0',hbase,hbase',-⟩ := (h.sameBase hr hr').clear
    simp only [Item.finish,rollback_eq rfl hpending,rollback_eq rfl hpending',hs₀,hs0']
    exact ⟨s₀,rfl,(hbase.trans (h.sameBase hr hr')).trans hbase'.symm⟩
  | abandon =>
    obtain ⟨hr,hr'⟩ := hrec (by decide)
    exact ⟨s,rfl,h.sameBase hr hr'⟩

/-- Calls and transactions on stores with the same committed state return the same. -/
theorem sameBase_run (h : Storage.SameBase s s') (item : Item S R) (htrace : item.Traceless s) :
    Agrees Storage.SameBase (item.run s) (item.run s') := by
  obtain ⟨s₀,s0',hs₀,hs0',hbase,hbase',hnone,hnone',hsame⟩ := h.clear
  cases item with
  | raw owner a =>
    rw [run,run,hs₀,hs0']
    have hagrees := hsame.access owner a
    cases ha : s0'.access owner a with
    | error p =>
      rw [ha] at hagrees
      have hs : s₀.access owner a = .error p := hagrees
      simp only [bind_of_ok,ha,hs]
      exact rfl
    | ok r =>
      rw [ha] at hagrees
      obtain ⟨s₁,hs₁,hsame1⟩ := hagrees
      have hnone1 : s₁.pendingTxn = none := by
        have hpending := hsame.left.access_pending hs₁
        rwa [hnone,isSome_none,isSome_eq_false_iff,isNone_iff_eq_none] at hpending
      have hnone1' : r.2.pendingTxn = none := by
        have hpending := hsame1.pending
        rwa [hnone1,isSome_none,eq_comm,isSome_eq_false_iff,isNone_iff_eq_none]
          at hpending
      simp only [bind_of_ok,ha,hs₁]
      exact ⟨s₁,rfl,hsame1.sameBase (Storage.Ok.recorded_of_none hnone1)
        (Storage.Ok.recorded_of_none hnone1')⟩
  | txn owner as finish =>
    rw [run_txn_eq hs₀,run_txn_eq hs0']
    have hbegin := hsame.begin hnone hnone'
    have hagrees := runAll_agrees (fun a s s' hrel => Storage.Same.access hrel owner a) as hbegin
    cases has : runAll (Storage.access owner) as s0'.beginTransaction.2 with
    | error p =>
      rw [has] at hagrees
      have hs : runAll (Storage.access owner) as s₀.beginTransaction.2 = .error p := hagrees
      simp only [hs]
      exact rfl
    | ok r =>
      obtain ⟨rs,s1'⟩ := r
      rw [has] at hagrees
      obtain ⟨s₁,hs₁,hsame1⟩ := hagrees
      have hok := h.left
      obtain ⟨hokb,hrecb,-⟩ := hsame.left.begin hnone
      obtain ⟨hokb',hrecb',-⟩ := hsame.right.begin hnone'
      obtain ⟨hwithin,huntraced⟩ := hokb.accessAll_txn rfl hs₁
      obtain ⟨hwithin',huntraced'⟩ := hokb'.accessAll_txn rfl has
      have hid : s₁.txnId = s₀.nextTxn := hwithin.txnId
      have hid' : s1'.txnId = s0'.nextTxn := hwithin'.txnId
      simp only [hs₁,bind_of_ok,← hid,← hid']
      refine same_finish hsame1 hwithin.pending rs finish fun hfinish => ?_
      have hcalls := htrace hfinish s₀ hs₀
      exact ⟨(huntraced hcalls).2 hrecb,(huntraced' (hbegin.tracelessAll hcalls)).2 hrecb'⟩

/-- A transaction that does not commit leaves the committed state as it was. -/
theorem sameBase_rollback (h : Storage.SameBase s s) {owner : Owner} {as : List (Access S R)}
    {finish : Finish} {rs : List (Reply S R)} (hfinish : finish ≠ .commit)
    (htrace : (txn owner as finish).Traceless s) (hrun : (txn owner as finish).run s = .ok (rs,s')) :
    Storage.SameBase s' s := by
  obtain ⟨s₀,-,hs₀,-,hbase,-,hnone,-⟩ := h.clear
  rw [run_txn_eq hs₀,bind_eq_ok] at hrun
  obtain ⟨⟨rs1,s₁⟩,hs₁,hend⟩ := hrun
  have hbegin := hbase.left.sameBase_begin hnone
  obtain ⟨hwithin,huntraced⟩ := hbegin.left.accessAll_txn rfl hs₁
  have hbase1 := hwithin.sameBase hbegin.left hbegin.leftRecorded (huntraced (htrace hfinish s₀ hs₀))
  have hbase1' : Storage.SameBase s₁ s := hbase1.trans (hbegin.trans hbase)
  cases finish with
  | commit => exact absurd rfl hfinish
  | abandon =>
    cases hend
    exact hbase1'
  | rollback =>
    obtain ⟨s2,-,hs2,-,hbase2,-⟩ := hbase1'.clear
    have hdrop : s₁.rollbackTransaction s₀.nextTxn = .ok s2 :=
      (rollback_eq hwithin.txnId hwithin.pending).trans hs2
    simp only [Item.finish,hdrop,bind_of_ok] at hend
    cases hend
    exact hbase2.trans hbase1'

theorem sameBase_new : Storage.SameBase (Storage.new : Storage S) Storage.new := by
  have hok : (Storage.new : Storage S).Ok := by
    refine ⟨?_,fun τ => Table.ok_empty 1,Nat.lt_succ_self 1,?_,?_⟩
    · rintro key e ⟨⟩
    · rintro id modified ⟨⟩
    · rintro id modified ⟨⟩
  have hrec : (Storage.new : Storage S).Recorded := Storage.Ok.recorded_of_none rfl
  exact ⟨hok,hrec,hok,hrec,rfl,fun _ => rfl,fun _ => rfl⟩

/-- After a transaction that is rolled back or abandoned, everything returns what it would return if
the transaction had never begun. -/
theorem rollback_leaves_no_trace (before rest : List (Item S R)) {owner : Owner}
    {as : List (Access S R)} {finish : Finish} (hfinish : finish ≠ .commit)
    (htrace : AtEveryCall Item.run Traceless (before ++ txn owner as finish::rest) Storage.new)
    {rss : List (List (Reply S R))} {rs : List (Reply S R)}
    (hbefore : runAll Item.run before Storage.new = .ok (rss,s))
    (htxn : (txn owner as finish).run s = .ok (rs,s')) :
    Prod.fst <$> runAll Item.run rest s' = Prod.fst <$> runAll Item.run rest s := by
  obtain ⟨hcalls,htail⟩ := htrace.append hbefore
  have hagrees := runAll_agrees_of (fun item s s' hrel htr => sameBase_run hrel item htr) before
    sameBase_new hcalls
  rw [hbefore] at hagrees
  obtain ⟨s₁,hs₁,hsame⟩ := hagrees
  cases hs₁
  have hbase := sameBase_rollback hsame hfinish htail.1 htxn
  have hrest := (forall_step_iff htxn).mp htail.2
  exact (runAll_agrees_of (fun item s s' hrel htr => sameBase_run hrel item htr) rest hbase hrest).map_fst

section
attribute [local instance] Table.neZero_three

instance {D : TableDesc} (owner : Option Owner) (mask : DeleteMask D.Key D.Value) :
    (call : TableCall D R) → Decidable (call.Traceless owner mask)
  | .init => inferInstanceAs (Decidable (owner.isSome = true))
  | .write w => inferInstanceAs (Decidable (w.setsOwner = true → owner.isSome = true))
  | .forEachMut _ _ _ =>
    match mask with
    | .none => isTrue (by rintro id removed ⟨⟩)
    | .all _ _ => isTrue (by rintro id removed ⟨⟩)
    | .some _ removed => decidable_of_iff (removed = ∅)
        ⟨by rintro h id removed ⟨⟩; exact h,fun h => h _ _ rfl⟩
  | .get _ => isTrue trivial
  | .len => isTrue trivial
  | .isEmpty => isTrue trivial
  | .iter _ => isTrue trivial

instance (s : Storage S) : (a : Access S R) → Decidable (s.Traceless a)
  | .lookup _ _ _ => isTrue trivial
  | .getBy _ _ _ => isTrue trivial
  | .op (.get _) => isTrue trivial
  | .op (.insert _ _) => isTrue trivial
  | .op (.remove _) => isTrue trivial
  | .op (.table τ call) =>
    inferInstanceAs (Decidable (call.Traceless (s.tables τ).owner (s.tables τ).rows.deleteMask))

instance (s : Storage S) : (item : Item S R) → Decidable (item.Traceless s)
  | .raw _ _ => isTrue trivial
  | .txn owner as finish =>
    match h : s.clearTransaction with
    | .error _ => isTrue (fun _ s₀ hs₀ => by rw [h] at hs₀; cases hs₀)
    | .ok s₀ => decidable_of_iff (finish ≠ .commit →
        AtEveryCall (Storage.access owner) Storage.Traceless as s₀.beginTransaction.2)
        ⟨fun hall hfinish s₁ hs₁ => by rw [h] at hs₁; cases hs₁; exact hall hfinish,
          fun hall hfinish => hall hfinish s₀ h⟩

@[reducible] def smallSchema : Schema where
  Singleton := Unit
  SinValue := Fin 3
  Tab := Unit
  desc _ := Table.smallDesc
  names := [()]
  nodup := Table.smallDesc.nodup
  complete := Table.smallDesc.complete
  decSingleton := inferInstance
  decTab := inferInstance

def finOrder : KeyOrder (Fin 3) where
  le a b := decide (a ≤ b)
  total := by decide
  trans := by decide
  antisymm := by decide

def onTable (call : TableCall Table.smallDesc Unit) : Access smallSchema Unit := .op (.table () call)

def putRow (k v : Fin 3) : Access smallSchema Unit := onTable (.write (.insert k v))

def getRow (k : Fin 3) : Access smallSchema Unit := onTable (.get k)

def dropRow (k : Fin 3) : Access smallSchema Unit := onTable (.write (.remove k))

/-- Iterate for writing, without a change. -/
def touchAll : Access smallSchema Unit := onTable (.forEachMut finOrder (fun _ v _ => (v,())) ())

/-- The row, or the owner, that the last call has returned. -/
def lastReply (x : Result (List (List (Reply smallSchema Unit)) × Storage smallSchema)) :
    Option (Option (Fin 3) ⊕ Option Owner) :=
  match x.toOption.bind fun r => r.1.getLast?.bind List.getLast? with
  | some (.table _ (.value v)) => some (.inl v)
  | some (.table _ (.alreadyInit owner)) => some (.inr owner)
  | _ => none

/-- A transaction writes to two rows and deletes one. -/
def twoRows : Item smallSchema Unit := .txn "a" [touchAll,putRow 1 1,dropRow 0] .rollback

/-- A row is written, another transaction commits, and a row is read. -/
def writeThenRead (k v : Fin 3) : List (Item smallSchema Unit) :=
  [.raw "a" (putRow k v),.txn "a" [] .commit,.raw "a" (getRow 0)]

theorem rollback_leaves_no_trace_two_rows :
    ∃ s s' rss rs, runAll Item.run [.raw "a" (putRow 0 0)] Storage.new = .ok (rss,s) ∧
      twoRows.run s = .ok (rs,s') ∧
      Prod.fst <$> runAll Item.run (writeThenRead 2 2) s' =
        Prod.fst <$> runAll Item.run (writeThenRead 2 2) s := by
  obtain ⟨⟨rss,s⟩,hs,hP⟩ := exists_ok_of_any
    (x := runAll Item.run [.raw "a" (putRow 0 0)] (Storage.new : Storage smallSchema))
    (P := fun a => Result.panic (twoRows.run a.2) = none) (by decide +kernel)
  obtain ⟨⟨rs,s'⟩,hs'⟩ := exists_ok_of_panic hP
  have htrace : AtEveryCall Item.run Traceless
      ([.raw "a" (putRow 0 0)] ++ twoRows::writeThenRead 2 2) Storage.new := by decide +kernel
  exact ⟨s,s',rss,rs,hs,hs',rollback_leaves_no_trace _ _ (by decide) htrace hs hs'⟩

/-- A transaction deletes a row and iterates the table for writing. -/
def deletedRow : Item smallSchema Unit := .txn "a" [dropRow 0,touchAll] .rollback

/-- The version that the iteration has made of the deleted row is seen by a later transaction, in the
place of a newer one; and the owner that a transaction has given to a table is left. -/
theorem rollback_leaves_traces :
    (∃ s s' rss rs, runAll Item.run [.raw "a" (putRow 0 0)] Storage.new = .ok (rss,s) ∧
      deletedRow.run s = .ok (rs,s') ∧
      lastReply (runAll Item.run (writeThenRead 0 1) s') = some (.inl (some 0)) ∧
      lastReply (runAll Item.run (writeThenRead 0 1) s) = some (.inl (some 1))) ∧
    ∃ s' rs, (txn "a" [putRow 0 0] .rollback).run Storage.new = .ok (rs,s') ∧
      lastReply (runAll Item.run [.raw "b" (onTable .init)] s') = some (.inr (some "a")) ∧
      lastReply (runAll Item.run [.raw "b" (onTable .init)] Storage.new) = some (.inr none) := by
  constructor
  · obtain ⟨⟨rss,s⟩,hs,hP,hread⟩ := exists_ok_of_any
      (x := runAll Item.run [.raw "a" (putRow 0 0)] (Storage.new : Storage smallSchema))
      (P := fun a => (deletedRow.run a.2).toOption.any (fun b =>
          decide (lastReply (runAll Item.run (writeThenRead 0 1) b.2) = some (.inl (some 0)))) = true ∧
        lastReply (runAll Item.run (writeThenRead 0 1) a.2) = some (.inl (some 1))) (by decide +kernel)
    obtain ⟨⟨rs,s'⟩,hs',hread'⟩ := exists_ok_of_any hP
    exact ⟨s,s',rss,rs,hs,hs',hread',hread⟩
  · obtain ⟨⟨rs,s'⟩,hs',hread⟩ := exists_ok_of_any
      (x := (txn "a" [putRow 0 0] .rollback).run (Storage.new : Storage smallSchema))
      (P := fun a => lastReply (runAll Item.run [.raw "b" (onTable .init)] a.2) = some (.inr (some "a")))
      (by decide +kernel)
    exact ⟨s',rs,hs',hread,by decide +kernel⟩

end
end Item
end Tailnet.KvStore
