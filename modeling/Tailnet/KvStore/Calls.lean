import Tailnet.KvStore.Storage

/-! Calls of a table: calls of tables that show the same return the same, and a call in a transaction
leaves the committed rows as they are. -/
namespace Tailnet.KvStore
open Result Image

namespace Write
variable {D : TableDesc} {R : Type}

/-- Whether the write sets the owner of a table that has none. -/
def setsOwner : Write D R → Bool
  | insert _ _ => true
  | clear => true
  | _ => false

end Write

/-- The owner of a table, or of a single value, after a write by an owner. -/
def claimOwner (sets : Bool) (owner : Owner) : Option Owner → Result (Option Owner)
  | some prev => if prev = owner then .ok (some prev) else .error (Table.violation prev owner)
  | none => .ok (if sets then some owner else none)

theorem claimOwner_of_isSome {sets : Bool} {owner : Owner} {prev o : Option Owner}
    (h : claimOwner sets owner prev = .ok o) (hsome : sets = true → prev.isSome = true) : o = prev := by
  cases prev with
  | none =>
    cases sets with
    | false =>
      cases h
      rfl
    | true => cases hsome rfl
  | some prev =>
    rw [claimOwner] at h
    split at h
    · cases h
      rfl
    · cases h

theorem TableCall.checkOwner_eq {D : TableDesc} {R : Type} (owner : Owner) (T : Table D) (w : Write D R) :
    TableCall.checkOwner owner T w =
      (fun o => { T with owner := o }) <$> claimOwner w.setsOwner owner T.owner := by
  obtain ⟨prev,rows,indexes⟩ := T
  cases prev with
  | none => cases w <;> rfl
  | some prev =>
    by_cases h : prev = owner <;> cases w <;>
      simp [checkOwner,Table.assertOrSetOwner,Table.assertOwner,claimOwner,h]

theorem Table.assertOwner_eq {D : TableDesc} (owner : Owner) (T : Table D) :
    T.assertOwner owner = (fun _ => ()) <$> claimOwner false owner T.owner := by
  obtain ⟨prev,rows,indexes⟩ := T
  cases prev with
  | none => rfl
  | some prev => by_cases h : prev = owner <;> simp [assertOwner,claimOwner,h]

namespace TableImage
variable {D : TableDesc}

theorem gc_congr {s s' : TableImage D} (hrows : s.rows.base = s'.rows.base)
    (hindexes : ∀ i, (s.indexes i).base = (s'.indexes i).base) : s.gc = s'.gc := by
  simp only [gc,Image.gc,hrows,hindexes]

theorem gc_next {R : Type} (w : Write D R) (s : TableImage D) : (w.next true s).gc = s.gc := by
  have honRemove : ∀ (s : TableImage D) (v : D.Value) i,
      ((s.onRemove true v).indexes i).base = (s.indexes i).base :=
    fun s v i => base_foldl (fun s x => base_remove s x) _ _
  have honInsert : ∀ (s : TableImage D) (k : D.Key) (v : D.Value) i,
      ((s.onInsert true k v).indexes i).base = (s.indexes i).base :=
    fun s k v i => base_foldl (fun s x => base_insert s x k) _ _
  cases w with
  | insert key value =>
    refine gc_congr (base_insert s.rows key value) fun i => ?_
    cases hv : s.rows.view key with
    | none => simpa [Write.next,insert,hv] using honInsert s key value i
    | some old =>
      simpa [Write.next,insert,hv] using (honInsert (s.onRemove true old) key value i).trans
        (honRemove s old i)
  | remove key =>
    refine gc_congr (base_remove s.rows key) fun i => ?_
    cases hv : s.rows.removed true key with
    | none => simp [Write.next,remove,hv]
    | some old => simpa [Write.next,remove,hv] using honRemove s old i
  | clear => rfl
  | withMut key f =>
    cases hv : s.rows.view key with
    | none => simp [Write.next,mutate,hv]
    | some old =>
      refine gc_congr ?_ fun i => ?_
      · simpa [Write.next,mutate,hv] using base_mutate s.rows key _
      · simpa [Write.next,mutate,hv] using (honInsert (s.onRemove true old) key _ i).trans
          (honRemove s old i)

theorem gc_forEachImage {R : Type} (f : D.Key → D.Value → R → D.Value × R) (keys : List D.Key)
    (s : TableImage D) (x : R) : (Table.forEachImage true f keys s x).1.gc = s.gc := by
  induction keys generalizing s x with
  | nil => rfl
  | cons k keys ih =>
    rw [Table.forEachImage,List.foldl_cons]
    exact (ih _ _).trans (gc_next (Write.withMut k fun v => f k v x) s)

end TableImage

namespace Table
variable {D : TableDesc} {R : Type} {c t c' t' : TxnId} {T T' : Table D}

/-- Two tables show the same, each to its transaction. -/
structure Same (c t c' t' : TxnId) (T T' : Table D) : Prop where
  left : T.Ok c t
  right : T'.Ok c' t'
  image : T.image c t = T'.image c' t'
  owner : T.owner = T'.owner

end Table

namespace TableCall
variable {D : TableDesc} {R : Type} {c t c' t' : TxnId} {T T' : Table D}

/-- The call of a closure that keeps a state, on tables that show the same. -/
theorem same_forEachMut (h : Table.Same c t c' t' T T') (hin : decide (c < t) = decide (c' < t'))
    (ord : KeyOrder D.Key) (f : D.Key → D.Value → R → D.Value × R) (x : R) :
    ∃ T1 T1' y, T.forEachMut ord f x t c = .ok (T1,y) ∧ T'.forEachMut ord f x t' c' = .ok (T1',y) ∧
      Table.Same c t c' t' T1 T1' := by
  obtain ⟨T1,hT1,hok1,himage1,howner1,-⟩ := h.left.forEachMut ord f x
  obtain ⟨T2,hT2,hok2,himage2,howner2,-⟩ := h.right.forEachMut ord f x
  have hkeys : T.rows.mutKeys ord = T'.rows.mutKeys ord :=
    h.left.rows.mutKeys_congr h.right.rows (congrArg TableImage.rows h.image)
  rw [hkeys,h.image,hin] at hT1 himage1
  exact ⟨T1,T2,_,hT1,hT2,hok1,hok2,himage1.trans himage2.symm,
    howner1.trans (h.owner.trans howner2.symm)⟩

/-- Calls of tables that show the same return the same. -/
theorem same (h : Table.Same c t c' t' T T') (hin : decide (c < t) = decide (c' < t')) (owner : Owner)
    (call : TableCall D R) :
    Agrees (Table.Same c t c' t') (call.run owner t c T) (call.run owner t' c' T') := by
  have hview : (T.image c t).rows = (T'.image c' t').rows := congrArg TableImage.rows h.image
  cases call with
  | init =>
    obtain ⟨hok,hok',himage,howner⟩ := h
    obtain ⟨prev,rows,indexes⟩ := T
    obtain ⟨prev',rows',indexes'⟩ := T'
    have hprev : prev = prev' := howner
    subst hprev
    cases prev with
    | none => exact ⟨_,rfl,⟨hok.rows,hok.indexes⟩,⟨hok'.rows,hok'.indexes⟩,himage,rfl⟩
    | some prev => exact ⟨_,rfl,hok,hok',himage,rfl⟩
  | write w =>
    rw [run,run,checkOwner_eq,checkOwner_eq,h.owner]
    cases hclaim : claimOwner w.setsOwner owner T'.owner with
    | error p => exact rfl
    | ok o =>
      have hok : ({ T with owner := o } : Table D).Ok c t := ⟨h.left.rows,h.left.indexes⟩
      have hok' : ({ T' with owner := o } : Table D).Ok c' t' := ⟨h.right.rows,h.right.indexes⟩
      obtain ⟨T1,hT1,hfollows1⟩ := w.run_spec hok
      obtain ⟨T2,hT2,hfollows2⟩ := w.run_spec hok'
      have himage : ({ T with owner := o } : Table D).image c t =
          ({ T' with owner := o } : Table D).image c' t' := h.image
      have himages := hfollows1.image
      rw [himage] at hT1 himages
      rw [hin] at himages
      simp only [map_of_ok,bind_of_ok,hT1,hT2]
      exact ⟨T1,rfl,hfollows1.ok,hfollows2.ok,himages.trans hfollows2.image.symm,
        hfollows1.owner.trans hfollows2.owner.symm⟩
  | forEachMut ord f x =>
    obtain ⟨T1,T1',y,hT1,hT1',hsame⟩ := same_forEachMut h hin ord f x
    rw [run,run,Table.assertOwner_eq,Table.assertOwner_eq,h.owner]
    cases hclaim : claimOwner false owner T'.owner with
    | error p => exact rfl
    | ok o =>
      simp only [map_of_ok,bind_of_ok,hT1,hT1']
      exact ⟨T1,rfl,hsame⟩
  | get key =>
    simp only [run,h.left.rows.get key,h.right.rows.get key]
    exact ⟨T,by rw [← show (T.image c t).rows = T.rows.image c t from rfl,hview]; rfl,h⟩
  | len =>
    obtain ⟨ord⟩ := KeyOrder.exists D.Key
    have hiter : T.rows.iter ord t = T'.rows.iter ord t' := Rows.iter_congr hview
    rw [run,run,h.left.rows.len ord,h.right.rows.len ord,hiter]
    exact ⟨T,rfl,h⟩
  | isEmpty =>
    obtain ⟨ord⟩ := KeyOrder.exists D.Key
    have hiter : T.rows.iter ord t = T'.rows.iter ord t' := Rows.iter_congr hview
    rw [run,run,h.left.rows.isEmpty ord,h.right.rows.isEmpty ord,hiter]
    exact ⟨T,rfl,h⟩
  | iter ord =>
    have hiter : T.rows.iter ord t = T'.rows.iter ord t' := Rows.iter_congr hview
    rw [run,run,hiter]
    exact ⟨T,rfl,h⟩

/-- What a transaction may do to a table so that it can be dropped without a trace: rows are not
iterated for writing while some of them are deleted, and the table has its owner already. -/
def Traceless (owner : Option Owner) (mask : DeleteMask D.Key D.Value) : TableCall D R → Prop
  | init => owner.isSome
  | write w => w.setsOwner → owner.isSome
  | forEachMut _ _ _ => ∀ id removed, mask = .some id removed → removed = ∅
  | _ => True

/-- A call in a transaction leaves the committed rows as they are. -/
theorem run_txn {owner : Owner} {call : TableCall D R} {r : TableReply D R} (h : T.Ok c t) (hlt : c < t)
    (hrun : call.run owner t c T = .ok (r,T')) :
    T'.Ok c t ∧ (T'.image c t).gc = (T.image c t).gc ∧
      (call.Traceless T.owner T.rows.deleteMask → T'.owner = T.owner ∧
        (T.Recorded c t → T'.Recorded c t)) := by
  have hsame : T' = T → T'.Ok c t ∧ (T'.image c t).gc = (T.image c t).gc ∧
      (call.Traceless T.owner T.rows.deleteMask → T'.owner = T.owner ∧
        (T.Recorded c t → T'.Recorded c t)) := by
    rintro rfl
    exact ⟨h,rfl,fun _ => ⟨rfl,id⟩⟩
  cases call with
  | init =>
    obtain ⟨prev,rows,indexes⟩ := T
    cases prev with
    | none =>
      cases hrun
      exact ⟨⟨h.rows,h.indexes⟩,rfl,fun htrace => by cases htrace⟩
    | some prev =>
      cases hrun
      exact hsame rfl
  | write w =>
    rw [run,checkOwner_eq,bind_eq_ok] at hrun
    obtain ⟨T0,hT0,hrest⟩ := hrun
    cases hclaim : claimOwner w.setsOwner owner T.owner with
    | error p => simp [hclaim] at hT0
    | ok o =>
      simp only [hclaim,map_of_ok,Except.ok.injEq] at hT0
      subst hT0
      have hok : ({ T with owner := o } : Table D).Ok c t := ⟨h.rows,h.indexes⟩
      obtain ⟨T1,hT1,hfollows⟩ := w.run_spec hok
      rw [hT1] at hrest
      cases hrest
      refine ⟨hfollows.ok,?_,fun htrace => ⟨?_,fun hr => hfollows.recorded ⟨hr.rows,hr.indexes⟩⟩⟩
      · rw [hfollows.image,decide_eq_true hlt,TableImage.gc_next]
        rfl
      · rw [hfollows.owner]
        exact claimOwner_of_isSome hclaim htrace
  | forEachMut ord f x =>
    obtain ⟨T1,hT1,hok1,himage1,howner1,hrec1⟩ := h.forEachMut ord f x
    rw [run,bind_eq_ok] at hrun
    obtain ⟨-,-,hrest⟩ := hrun
    rw [hT1] at hrest
    cases hrest
    refine ⟨hok1,?_,fun htrace => ⟨howner1,hrec1 fun removed hmask => ?_⟩⟩
    · rw [himage1,decide_eq_true hlt,TableImage.gc_forEachImage]
    · cases hm : T.rows.deleteMask with
      | none => simp [Table.image,Rows.image,Rows.maskImage,hm] at hmask
      | all id present => simp [Table.image,Rows.image,Rows.maskImage,hm] at hmask
      | some id rows =>
        have heq : rows = removed := by simpa [Table.image,Rows.image,Rows.maskImage,hm] using hmask
        exact heq ▸ htrace id rows hm
  | get key =>
    obtain ⟨v,-,hrest⟩ := bind_eq_ok.mp hrun
    cases hrest
    exact hsame rfl
  | len =>
    obtain ⟨v,-,hrest⟩ := bind_eq_ok.mp hrun
    cases hrest
    exact hsame rfl
  | isEmpty =>
    obtain ⟨v,-,hrest⟩ := bind_eq_ok.mp hrun
    cases hrest
    exact hsame rfl
  | iter ord =>
    cases hrun
    exact hsame rfl

end TableCall
end Tailnet.KvStore
