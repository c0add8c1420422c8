import Tailnet.KvStore.RowsEnd
import Tailnet.KvStore.Table

/-! Tables under the calls of one transaction: what a table and its indexes show, and how each call
changes it. -/
namespace Tailnet.KvStore

/-- A loop over rows, each step of which leads to an image. -/
theorem Rows.Ok.foldlM {K V α : Type} [DecidableEq K] {c t : TxnId} {r : Rows K V}
    {step : Rows K V → α → Result (Rows K V)} {next : Image K V → α → Image K V}
    (hstep : ∀ r a, r.Ok c t → Rows.Leads c t r (step r a) (next (r.image c t) a)) (l : List α)
    (h : r.Ok c t) : Rows.Leads c t r (l.foldlM step r) (l.foldl next (r.image c t)) := by
  induction l generalizing r with
  | nil => exact ⟨r,rfl,h,rfl,id⟩
  | cons a l ih =>
    obtain ⟨r1,hr1,hok1,himage1,hrec1⟩ := hstep r a h
    obtain ⟨r2,hr2,hok2,himage2,hrec2⟩ := ih hok1
    refine ⟨r2,by simp [hr1,hr2],hok2,?_,hrec2 ∘ hrec1⟩
    rw [himage2,himage1]
    rfl

/-- What a table shows to a transaction. -/
structure TableImage (D : TableDesc) where
  rows : Image D.Key D.Value
  indexes : (i : D.Index) → Image (D.Field i) D.Key

namespace TableImage
variable {D : TableDesc}

/-- The indexes give up the values of a row. -/
def onRemove (inTxn : Bool) (v : D.Value) (s : TableImage D) : TableImage D :=
  { s with indexes := fun i => (D.values i v).foldl (fun s x => s.remove inTxn x) (s.indexes i) }

/-- The indexes take the values of a row. -/
def onInsert (inTxn : Bool) (k : D.Key) (v : D.Value) (s : TableImage D) : TableImage D :=
  { s with indexes := fun i => (D.values i v).foldl (fun s x => s.insert inTxn x k) (s.indexes i) }

def insert (inTxn : Bool) (k : D.Key) (v : D.Value) (s : TableImage D) : TableImage D :=
  let s' := (match s.rows.view k with
    | some old => s.onRemove inTxn old
    | none => s).onInsert inTxn k v
  { s' with rows := s.rows.insert inTxn k v }

def remove (inTxn : Bool) (k : D.Key) (s : TableImage D) : TableImage D :=
  let s' := match s.rows.removed inTxn k with
    | some old => s.onRemove inTxn old
    | none => s
  { s' with rows := s.rows.remove inTxn k }

def clear (inTxn : Bool) (s : TableImage D) : TableImage D :=
  ⟨s.rows.clear inTxn,fun i => (s.indexes i).clear inTxn⟩

def mutate (inTxn : Bool) (k : D.Key) (f : D.Value → D.Value) (s : TableImage D) : TableImage D :=
  match s.rows.view k with
  | some old => { (s.onRemove inTxn old).onInsert inTxn k (f old) with
      rows := s.rows.mutate inTxn k f }
  | none => s

def commit (s : TableImage D) : TableImage D := ⟨s.rows.commit,fun i => (s.indexes i).commit⟩

def gc (s : TableImage D) : TableImage D := ⟨s.rows.gc,fun i => (s.indexes i).gc⟩

/-- One row of an iteration for writing. -/
def visit {R : Type} (inTxn : Bool) (f : D.Key → D.Value → R → D.Value × R) (x : R) (k : D.Key)
    (s : TableImage D) : TableImage D × R :=
  (s.mutate inTxn k fun v => (f k v x).1,((s.rows.view k).map fun v => (f k v x).2).getD x)

end TableImage

namespace Table
variable {D : TableDesc} {c t : TxnId} {T : Table D}

structure Ok (c t : TxnId) (T : Table D) : Prop where
  rows : T.rows.Ok c t
  indexes : ∀ i, (T.indexes i).Ok c t

structure Recorded (c t : TxnId) (T : Table D) : Prop where
  rows : T.rows.Recorded c t
  indexes : ∀ i, (T.indexes i).Recorded c t

def image (c t : TxnId) (T : Table D) : TableImage D :=
  ⟨T.rows.image c t,fun i => (T.indexes i).image c t⟩

/-- A table after a call. -/
structure Follows (c t : TxnId) (T T' : Table D) (s : TableImage D) : Prop where
  ok : T'.Ok c t
  image : T'.image c t = s
  owner : T'.owner = T.owner
  recorded : T.Recorded c t → T'.Recorded c t

end Table

/-- A call of all indexes, each of which leads to an image. -/
theorem Indexes.leads {D : TableDesc} {c t : TxnId} {indexes : Indexes D}
    {f : (i : D.Index) → Rows (D.Field i) D.Key → Result (Rows (D.Field i) D.Key)}
    {s : (i : D.Index) → Image (D.Field i) D.Key}
    (h : ∀ i, Rows.Leads c t (indexes i) (f i (indexes i)) (s i)) :
    ∃ indexes', mapFamily D.fields f indexes = .ok indexes' ∧ (∀ i, (indexes' i).Ok c t) ∧
      (fun i => (indexes' i).image c t) = s ∧
      ((∀ i, (indexes i).Recorded c t) → ∀ i, (indexes' i).Recorded c t) := by
  choose indexes' hf hok himage hrec using h
  exact ⟨indexes',mapFamily_eq D.nodup D.complete hf,hok,funext himage,fun hr i => hrec i (hr i)⟩

namespace Table
variable {D : TableDesc} {c t : TxnId} {T : Table D}

theorem Ok.onInsert {indexes : Indexes D} (h : ∀ i, (indexes i).Ok c t) (k : D.Key) (v : D.Value) :
    ∃ indexes', indexes.onInsert k v t c = .ok indexes' ∧ (∀ i, (indexes' i).Ok c t) ∧
      (fun i => (indexes' i).image c t) =
        (fun i => (D.values i v).foldl (fun s x => s.insert (c < t) x k) ((indexes i).image c t)) ∧
      ((∀ i, (indexes i).Recorded c t) → ∀ i, (indexes' i).Recorded c t) :=
  Indexes.leads fun i => (h i).foldlM (fun _ x hr => hr.insert x k) (D.values i v)

theorem Ok.onRemove {indexes : Indexes D} (h : ∀ i, (indexes i).Ok c t) (v : D.Value) :
    ∃ indexes', indexes.onRemove v t c = .ok indexes' ∧ (∀ i, (indexes' i).Ok c t) ∧
      (fun i => (indexes' i).image c t) =
        (fun i => (D.values i v).foldl (fun s x => s.remove (c < t) x) ((indexes i).image c t)) ∧
      ((∀ i, (indexes i).Recorded c t) → ∀ i, (indexes' i).Recorded c t) := by
  refine Indexes.leads fun i => (h i).foldlM (fun r x hr => ?_) (D.values i v)
  obtain ⟨r',hr',hok,himage,hrec⟩ := hr.remove x
  exact ⟨r',by rw [hr']; rfl,hok,himage,hrec⟩

theorem Ok.insert (h : T.Ok c t) (k : D.Key) (v : D.Value) :
    ∃ T', T.insert k v t c = .ok T' ∧ Follows c t T T' ((T.image c t).insert (c < t) k v) := by
  obtain ⟨rows,hrows,hokRows,himageRows,hrecRows⟩ := h.rows.insert k v
  have hget := h.rows.get k
  cases hview : (T.rows.image c t).view k with
  | none =>
    obtain ⟨indexes,hindexes,hok,himage,hrec⟩ := Ok.onInsert h.indexes k v
    rw [hview] at hget
    refine ⟨{ T with rows, indexes },by simp [Table.insert,hget,hindexes,hrows],⟨hokRows,hok⟩,?_,rfl,
      fun hr => ⟨hrecRows hr.rows,hrec hr.indexes⟩⟩
    simp [image,TableImage.insert,hview,TableImage.onInsert,himageRows,himage]
  | some old =>
    obtain ⟨indexes1,hindexes1,hok1,himage1,hrec1⟩ := Ok.onRemove h.indexes old
    obtain ⟨indexes,hindexes,hok,himage,hrec⟩ := Ok.onInsert hok1 k v
    rw [hview] at hget
    refine ⟨{ T with rows, indexes },by simp [Table.insert,hget,hindexes1,hindexes,hrows],
      ⟨hokRows,hok⟩,?_,rfl,fun hr => ⟨hrecRows hr.rows,hrec (hrec1 hr.indexes)⟩⟩
    simp only [image,TableImage.insert,hview,TableImage.onInsert,TableImage.onRemove,himageRows,himage,
      ← congrFun himage1]

theorem Ok.remove (h : T.Ok c t) (k : D.Key) :
    ∃ T', T.remove k t c = .ok T' ∧ Follows c t T T' ((T.image c t).remove (c < t) k) := by
  obtain ⟨rows,hrows,hokRows,himageRows,hrecRows⟩ := h.rows.remove k
  cases hold : (T.rows.image c t).removed (c < t) k with
  | none =>
    rw [hold] at hrows
    refine ⟨{ T with rows },by simp [Table.remove,hrows],⟨hokRows,h.indexes⟩,?_,rfl,
      fun hr => ⟨hrecRows hr.rows,hr.indexes⟩⟩
    simp only [image,TableImage.remove,hold,himageRows]
  | some old =>
    obtain ⟨indexes,hindexes,hok,himage,hrec⟩ := Ok.onRemove h.indexes old
    rw [hold] at hrows
    refine ⟨{ T with rows, indexes },by simp [Table.remove,hrows,hindexes],⟨hokRows,hok⟩,?_,rfl,
      fun hr => ⟨hrecRows hr.rows,hrec hr.indexes⟩⟩
    simp only [image,TableImage.remove,hold,TableImage.onRemove,himageRows,himage]

theorem Ok.clear (h : T.Ok c t) :
    ∃ T', T.clear t c = .ok T' ∧ Follows c t T T' ((T.image c t).clear (c < t)) := by
  obtain ⟨rows,hrows,hokRows,himageRows,hrecRows⟩ := h.rows.clear
  obtain ⟨indexes,hindexes,hok,himage,hrec⟩ := Indexes.leads fun i => (h.indexes i).clear
  refine ⟨{ T with rows, indexes },by simp [Table.clear,Indexes.clear,hrows,hindexes],⟨hokRows,hok⟩,?_,
    rfl,fun hr => ⟨hrecRows hr.rows,hrec hr.indexes⟩⟩
  simp only [image,TableImage.clear,himageRows,himage]

theorem Ok.reindex {R : Type} (h : T.Ok c t) {rows : Rows D.Key D.Value} {f : D.Value → D.Value × R}
    {k : D.Key} (hok : rows.Ok c t)
    (himage : rows.image c t = (T.rows.image c t).mutate (c < t) k fun v => (f v).1) :
    ∃ T', T.reindex k t c (((T.rows.image c t).view k).map fun v => (v,(f v).1,(f v).2),rows) =
        .ok (((T.rows.image c t).view k).map fun v => (f v).2,T') ∧ T'.Ok c t ∧
      T'.image c t = (T.image c t).mutate (c < t) k (fun v => (f v).1) ∧ T'.owner = T.owner ∧
      T'.rows = rows ∧ ((∀ i, (T.indexes i).Recorded c t) → ∀ i, (T'.indexes i).Recorded c t) := by
  cases hview : (T.rows.image c t).view k with
  | none =>
    rw [Image.mutate_of_none hview] at himage
    refine ⟨{ T with rows },by simp [Table.reindex],⟨hok,h.indexes⟩,?_,rfl,rfl,id⟩
    simp only [image,TableImage.mutate,hview,himage]
  | some old =>
    obtain ⟨indexes1,hindexes1,hok1,himage1,hrec1⟩ := Ok.onRemove h.indexes old
    obtain ⟨indexes,hindexes,hok',himage',hrec⟩ := Ok.onInsert hok1 k (f old).1
    refine ⟨{ T with rows, indexes },by simp [Table.reindex,hindexes1,hindexes],⟨hok,hok'⟩,?_,rfl,rfl,
      fun hr => hrec (hrec1 hr)⟩
    simp only [image,TableImage.mutate,hview,TableImage.onInsert,TableImage.onRemove,himage,himage',
      ← congrFun himage1]

theorem Ok.withMut {R : Type} (h : T.Ok c t) (k : D.Key) (f : D.Value → D.Value × R) :
    ∃ T', T.withMut k f t c = .ok (((T.image c t).rows.view k).map fun v => (f v).2,T') ∧
      Follows c t T T' ((T.image c t).mutate (c < t) k fun v => (f v).1) := by
  obtain ⟨rows,hrows,hok,himage,hrec⟩ := h.rows.withMut k f
  obtain ⟨T',hT',hok',himage',howner,hrows',hrec'⟩ := h.reindex hok himage
  refine ⟨T',by simp [Table.withMut,hrows,hT',image],hok',himage',howner,fun hr => ⟨?_,hrec' hr.indexes⟩⟩
  rw [hrows']
  exact hrec hr.rows

/-- No row is deleted one by one. -/
def NoneDeleted (s : TableImage D) : Prop := ∀ removed, s.rows.mask = .some removed → removed = ∅

theorem noneDeleted_mutate {s : TableImage D} {inTxn : Bool} {k : D.Key} {f : D.Value → D.Value}
    (h : NoneDeleted s) : NoneDeleted (s.mutate inTxn k f) := by
  cases hview : s.rows.view k with
  | none => simpa [TableImage.mutate,hview] using h
  | some old =>
    intro removed hmask
    obtain ⟨⟨base,seen,mask⟩,indexes⟩ := s
    cases mask <;> simp_all [TableImage.mutate,Image.mutate,Image.set,Image.write,NoneDeleted]

/-- One row of an iteration for writing. The rows stay known to the transaction if none is deleted. -/
theorem Ok.visit {R : Type} (h : T.Ok c t) (f : D.Key → D.Value → R → D.Value × R) (x : R) (k : D.Key) :
    ∃ T', Table.visit f t c (T,x) k = .ok (T',((T.image c t).visit (c < t) f x k).2) ∧ T'.Ok c t ∧
      T'.image c t = ((T.image c t).visit (c < t) f x k).1 ∧ T'.owner = T.owner ∧
      (NoneDeleted (T.image c t) → T.Recorded c t → T'.Recorded c t) := by
  obtain ⟨rows,hrows,hok,himage,hrec⟩ := h.rows.mutNext k fun v => f k v x
  obtain ⟨T',hT',hok',himage',howner,hrows',hrec'⟩ := h.reindex hok himage
  refine ⟨T',?_,hok',himage',howner,fun hnone hr => ⟨?_,hrec' hr.indexes⟩⟩
  · simp [Table.visit,hrows,hT',TableImage.visit,image]
  · rw [hrows']
    refine hrec (fun removed hmask hk => ?_) hr.rows
    rw [hnone removed hmask] at hk
    exact absurd hk (Finset.notMem_empty k)

/-- The image and the state of the closure after an iteration for writing. -/
def forEachImage {R : Type} (inTxn : Bool) (f : D.Key → D.Value → R → D.Value × R) (keys : List D.Key)
    (s : TableImage D) (x : R) : TableImage D × R :=
  keys.foldl (fun s k => s.1.visit inTxn f s.2 k) (s,x)

theorem Ok.visitAll {R : Type} (h : T.Ok c t) (f : D.Key → D.Value → R → D.Value × R) (x : R)
    (keys : List D.Key) :
    ∃ T', keys.foldlM (Table.visit f t c) (T,x) =
        .ok (T',(forEachImage (c < t) f keys (T.image c t) x).2) ∧ T'.Ok c t ∧
      T'.image c t = (forEachImage (c < t) f keys (T.image c t) x).1 ∧ T'.owner = T.owner ∧
      (NoneDeleted (T.image c t) → T.Recorded c t → T'.Recorded c t) := by
  induction keys generalizing T x with
  | nil => exact ⟨T,rfl,h,rfl,rfl,fun _ hr => hr⟩
  | cons k keys ih =>
    obtain ⟨T1,hT1,hok1,himage1,howner1,hrec1⟩ := h.visit f x k
    obtain ⟨T2,hT2,hok2,himage2,howner2,hrec2⟩ := ih hok1 ((T.image c t).visit (c < t) f x k).2
    have hfold : forEachImage (c < t) f (k::keys) (T.image c t) x =
        forEachImage (c < t) f keys (T1.image c t) ((T.image c t).visit (c < t) f x k).2 := by
      rw [himage1]
      rfl
    refine ⟨T2,by rw [List.foldlM_cons,hT1,Result.bind_of_ok,hT2,hfold],hok2,by rw [himage2,hfold],
      howner2.trans howner1,fun hnone hr => hrec2 ?_ (hrec1 hnone hr)⟩
    rw [himage1]
    exact noneDeleted_mutate hnone

theorem Ok.forEachMut {R : Type} (h : T.Ok c t) (ord : KeyOrder D.Key)
    (f : D.Key → D.Value → R → D.Value × R) (x : R) :
    ∃ T', T.forEachMut ord f x t c =
        .ok (T',(forEachImage (c < t) f (T.rows.mutKeys ord) (T.image c t) x).2) ∧ T'.Ok c t ∧
      T'.image c t = (forEachImage (c < t) f (T.rows.mutKeys ord) (T.image c t) x).1 ∧
      T'.owner = T.owner ∧ (NoneDeleted (T.image c t) → T.Recorded c t → T'.Recorded c t) :=
  h.visitAll f x (T.rows.mutKeys ord)

theorem Ok.getBy (h : T.Ok c t) (i : D.Index) (x : D.Field i) :
    T.getBy i x t = .ok ((((T.image c t).indexes i).view x).bind (T.image c t).rows.view) := by
  have hget := (h.indexes i).get x
  cases hview : ((T.indexes i).image c t).view x with
  | none =>
    rw [hview] at hget
    simp [Table.getBy,hget,image,hview]
  | some k =>
    rw [hview] at hget
    simp [Table.getBy,hget,image,hview,h.rows.get k]

theorem Ok.begin (h : T.Ok c c) (hct : c ≤ t) :
    T.Ok c t ∧ T.image c t = T.image c c ∧ T.Recorded c t := by
  obtain ⟨hok,himage,hrec⟩ := h.rows.begin hct
  have hindexes := fun i => (h.indexes i).begin hct
  refine ⟨⟨hok,fun i => (hindexes i).1⟩,?_,⟨hrec,fun i => (hindexes i).2.2⟩⟩
  simp only [image,himage,(hindexes _).2.1]

theorem Ok.check (h : T.Ok c t) : T.checkTxnConsistency t = true := by
  simp [Table.checkTxnConsistency,h.rows.check,fun i => (h.indexes i).check]

theorem Ok.commitTxn (h : T.Ok c t) :
    ∃ T', T.commitTxn t = .ok T' ∧ T'.Ok t t ∧ T'.image t t = (T.image c t).commit ∧
      T'.owner = T.owner := by
  obtain ⟨rows,hrows,hok,himage⟩ := h.rows.commitTxn
  choose indexes hindexes hoks himages using fun i => (h.indexes i).commitTxn
  have hall := mapFamily_eq D.nodup D.complete hindexes
  refine ⟨{ T with rows, indexes },by simp [Table.commitTxn,hrows,hall],⟨hok,hoks⟩,?_,rfl⟩
  simp only [image,TableImage.commit,himage,himages]

theorem Ok.gcTxn (h : T.Ok c t) (hlt : c < t) (hrec : T.Recorded c t) :
    ∃ T', T.gcTxn t = .ok T' ∧ T'.Ok c c ∧ T'.image c c = (T.image c t).gc ∧ T'.owner = T.owner := by
  obtain ⟨rows,hrows,hok,himage⟩ := h.rows.gcTxn hlt hrec.rows
  choose indexes hindexes hoks himages using fun i => (h.indexes i).gcTxn hlt (hrec.indexes i)
  have hall := mapFamily_eq D.nodup D.complete hindexes
  refine ⟨{ T with rows, indexes },by simp [Table.gcTxn,hrows,hall],⟨hok,hoks⟩,?_,rfl⟩
  simp only [image,TableImage.gc,himage,himages]

theorem ok_empty (c : TxnId) : (empty : Table D).Ok c c := ⟨Rows.ok_empty c,fun _ => Rows.ok_empty c⟩

theorem Ok.gc_image (h : T.Ok c c) : (T.image c c).gc = T.image c c := by
  have hrows : (T.rows.image c c).gc = T.rows.image c c := h.rows.gc_image
  have hindexes : ∀ i, ((T.indexes i).image c c).gc = (T.indexes i).image c c :=
    fun i => (h.indexes i).gc_image
  simp only [image,TableImage.gc,hrows,hindexes]

end Table
end Tailnet.KvStore
