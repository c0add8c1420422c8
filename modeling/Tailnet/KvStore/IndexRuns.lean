import Tailnet.KvStore.IndexExact

/-! Runs of writes to a table with indexes, inside of a transaction and outside of one. -/
namespace Tailnet.KvStore

inductive Write (D : TableDesc) (R : Type)
  | insert (key : D.Key) (value : D.Value)
  | remove (key : D.Key)
  | clear
  | withMut (key : D.Key) (f : D.Value → D.Value × R)

namespace Write
variable {D : TableDesc} {R : Type}

def run (txn maxCommitted : TxnId) (w : Write D R) (T : Table D) : Result (Option R × Table D) :=
  match w with
  | insert key value => (none,·) <$> T.insert key value txn maxCommitted
  | remove key => (none,·) <$> T.remove key txn maxCommitted
  | clear => (none,·) <$> T.clear txn maxCommitted
  | withMut key f => T.withMut key f txn maxCommitted

def next (inTxn : Bool) (w : Write D R) (s : TableImage D) : TableImage D :=
  match w with
  | insert key value => s.insert inTxn key value
  | remove key => s.remove inTxn key
  | clear => s.clear inTxn
  | withMut key f => s.mutate inTxn key fun v => (f v).1

/-- What the closure of a write returns. -/
def reply (w : Write D R) (s : TableImage D) : Option R :=
  match w with
  | withMut key f => (s.rows.view key).map fun v => (f v).2
  | _ => none

theorem run_spec {c t : TxnId} {T : Table D} (h : T.Ok c t) (w : Write D R) :
    ∃ T', w.run t c T = .ok (w.reply (T.image c t),T') ∧
      Table.Follows c t T T' (w.next (c < t) (T.image c t)) := by
  cases w with
  | insert key value =>
    obtain ⟨T',hT',hfollows⟩ := h.insert key value
    exact ⟨T',by simp [run,reply,hT'],hfollows⟩
  | remove key =>
    obtain ⟨T',hT',hfollows⟩ := h.remove key
    exact ⟨T',by simp [run,reply,hT'],hfollows⟩
  | clear =>
    obtain ⟨T',hT',hfollows⟩ := h.clear
    exact ⟨T',by simp [run,reply,hT'],hfollows⟩
  | withMut key f => exact h.withMut key f

/-- The write is a removal of a row that is gone, of which the main storage still has a value, with
index values of a row that is there. -/
def Stale (txn : TxnId) (T : Table D) : Write D R → Prop
  | remove key => T.rows.get key txn = .ok none ∧ ∃ old, Rows.seenAt txn T.rows.data key = some old ∧
      ∃ i, ∃ x ∈ D.values i old, ∃ k v, T.rows.get k txn = .ok (some v) ∧ x ∈ D.values i v
  | _ => False

end Write

namespace Table
variable {D : TableDesc} {R : Type} {c t : TxnId} {T : Table D}

/-- An index maps a value to a key iff the row of the key has the value. -/
def IndexExact (txn : TxnId) (T : Table D) : Prop :=
  ∀ i x k, (T.indexes i).get x txn = .ok (some k) ↔
    ∃ v, T.rows.get k txn = .ok (some v) ∧ x ∈ D.values i v

/-- No two rows share an index value. -/
def DistinctValues (txn : TxnId) (T : Table D) : Prop :=
  ∀ i k k' v v', T.rows.get k txn = .ok (some v) → T.rows.get k' txn = .ok (some v') →
    ∀ x ∈ D.values i v, x ∈ D.values i v' → k = k'

theorem Ok.settled (h : T.Ok c t) : (T.image c t).Settled (c < t) :=
  ⟨h.rows.settled,fun i => (h.indexes i).settled⟩

theorem Ok.get_iff (h : T.Ok c t) {k : D.Key} {o : Option D.Value} :
    T.rows.get k t = .ok o ↔ (T.image c t).rows.view k = o := by
  rw [h.rows.get k,Except.ok.injEq]
  rfl

theorem Ok.indexExact_iff (h : T.Ok c t) : T.IndexExact t ↔ (T.image c t).Exact := by
  refine forall_congr' fun i => forall_congr' fun x => forall_congr' fun k => ?_
  rw [(h.indexes i).get x]
  simp only [h.get_iff,Except.ok.injEq]
  rfl

theorem Ok.distinctValues_iff (h : T.Ok c t) : T.DistinctValues t ↔ (T.image c t).Distinct := by
  simp only [DistinctValues,h.get_iff]
  constructor
  · intro hd i k k' v v' x hk hk' hx hx'
    exact hd i k k' v v' hk hk' x hx hx'
  · intro hd i k k' v v' hk hk' x hx hx'
    exact hd i k k' v v' x hk hk' hx hx'

/-- In a transaction, a removal of a row that is gone finds what the main storage has. -/
theorem Ok.stale_iff (h : T.Ok c t) (k : D.Key) :
    (Write.remove k : Write D R).Stale t T ↔ (T.image c t).Stale true k := by
  simp only [Write.Stale,TableImage.Stale,h.get_iff]
  refine and_congr_right fun hk => ?_
  rw [Image.removed_of_none hk]
  rfl

theorem Ok.exact_next_iff (h : T.Ok c t) (hlt : c < t) (hexact : (T.image c t).Exact) (w : Write D R)
    (hdistinct : (w.next true (T.image c t)).Distinct) :
    (w.next true (T.image c t)).Exact ↔ ¬ w.Stale t T := by
  have hsettled := h.settled
  rw [decide_eq_true hlt] at hsettled
  cases w with
  | insert key value => exact iff_of_true (hexact.insert hsettled hdistinct) id
  | clear => exact iff_of_true (TableImage.exact_clear _) id
  | withMut key f => exact iff_of_true (hexact.mutate hsettled hdistinct) id
  | remove key =>
    rw [h.stale_iff key]
    exact hexact.remove_iff hsettled

theorem Ok.exists_run (h : T.Ok c t) (ws : List (Write D R)) :
    ∃ os T', runAll (Write.run t c) ws T = .ok (os,T') ∧ T'.Ok c t := by
  refine runAll_total (fun w T h => ?_) ws h
  obtain ⟨T',hT',hfollows⟩ := Write.run_spec h w
  exact ⟨_,T',hT',hfollows.ok⟩

/-- All along a run in a transaction the indexes are exact iff no write is stale. -/
theorem Ok.exact_run_iff (h : T.Ok c t) (hlt : c < t) (hexact : (T.image c t).Exact)
    (ws : List (Write D R)) (hdistinct : AtEveryState (Write.run t c) (DistinctValues t) ws T) :
    AtEveryCall (Write.run t c) (fun T w => ¬ w.Stale t T) ws T ↔
      AtEveryState (Write.run t c) (IndexExact t) ws T := by
  induction ws generalizing T with
  | nil => exact iff_of_true trivial (h.indexExact_iff.mpr hexact)
  | cons w ws ih =>
    obtain ⟨T',hT',hfollows⟩ := Write.run_spec h w
    have himage := hfollows.image
    rw [decide_eq_true hlt] at himage
    have hrest := (forall_step_iff hT').mp hdistinct.2
    have hdistinct' : (T'.image c t).Distinct := hfollows.ok.distinctValues_iff.mp hrest.first
    have hnext := h.exact_next_iff hlt hexact w (himage ▸ hdistinct')
    rw [← himage] at hnext
    rw [AtEveryCall,AtEveryState,forall_step_iff hT',forall_step_iff hT',
      and_iff_right (h.indexExact_iff.mpr hexact)]
    constructor
    · rintro ⟨hfresh,hcalls⟩
      exact (ih hfollows.ok (hnext.mpr hfresh) hrest).mp hcalls
    · intro hstates
      have hexact' : (T'.image c t).Exact := hfollows.ok.indexExact_iff.mp hstates.first
      exact ⟨hnext.mp hexact',(ih hfollows.ok hexact' hrest).mpr hstates⟩

/-- The indexes of a committed table are exact all along a transaction, and after its commit, iff no
removal is stale. -/
theorem txn_index_exact_iff (hlt : c < t) (hT : T.Ok c c) (hexact : T.IndexExact c)
    (ws : List (Write D R)) (hdistinct : AtEveryState (Write.run t c) (DistinctValues t) ws T) :
    AtEveryCall (Write.run t c) (fun T w => ¬ w.Stale t T) ws T ↔
      AtEveryState (Write.run t c) (IndexExact t) ws T ∧
      ∃ os T₁ T₂, runAll (Write.run t c) ws T = .ok (os,T₁) ∧ T₁.commitTxn t = .ok T₂ ∧
        T₂.IndexExact t := by
  obtain ⟨hok,himage,-⟩ := hT.begin hlt.le
  have hexact' : (T.image c t).Exact := by
    rw [himage]
    exact hT.indexExact_iff.mp hexact
  have hiff := hok.exact_run_iff hlt hexact' ws hdistinct
  obtain ⟨os,T₁,hrun,hok1⟩ := hok.exists_run ws
  obtain ⟨T₂,hT2,hok2,himage2,-⟩ := hok1.commitTxn
  constructor
  · intro hfresh
    have hstates := hiff.mp hfresh
    have hlast : (T₁.image c t).Exact := hok1.indexExact_iff.mp (hstates.last hrun)
    refine ⟨hstates,os,T₁,T₂,hrun,hT2,hok2.indexExact_iff.mpr ?_⟩
    rw [himage2]
    exact hlast.commit
  · intro h
    exact hiff.mpr h.1

theorem neZero_three : NeZero 3 := ⟨by decide⟩

section
attribute [local instance] neZero_three

/-- A table of a few numbers, with an index on them. -/
@[reducible] def smallDesc : TableDesc where
  Key := Fin 3
  Value := Fin 3
  Index := Unit
  Field _ := Fin 3
  fields := [()]
  nodup := by decide
  complete := by decide
  values _ v := [v]
  decKey := inferInstance
  decIndex := inferInstance
  decField _ := inferInstance

instance (txn : TxnId) : DecidablePred (IndexExact (D := smallDesc) txn) := fun T =>
  inferInstanceAs (Decidable (∀ (i : Unit) (x k : Fin 3), (T.indexes i).get x txn = .ok (some k) ↔
    ∃ v, T.rows.get k txn = .ok (some v) ∧ x ∈ [v]))

instance (txn : TxnId) : DecidablePred (DistinctValues (D := smallDesc) txn) := fun T =>
  inferInstanceAs (Decidable (∀ (_ : Unit) (k k' v v' : Fin 3), T.rows.get k txn = .ok (some v) →
    T.rows.get k' txn = .ok (some v') → ∀ x ∈ [v], x ∈ [v'] → k = k'))

instance (txn : TxnId) (T : Table smallDesc) (w : Write smallDesc Unit) : Decidable (w.Stale txn T) :=
  match w with
  | .remove key => inferInstanceAs (Decidable (T.rows.get key txn = .ok none ∧
      ∃ old, Rows.seenAt txn T.rows.data key = some old ∧
      ∃ _ : Unit, ∃ x ∈ [old], ∃ k v, T.rows.get k txn = .ok (some v) ∧ x ∈ [v]))
  | .insert _ _ => inferInstanceAs (Decidable False)
  | .clear => inferInstanceAs (Decidable False)
  | .withMut _ _ => inferInstanceAs (Decidable False)

def oneRow : Table smallDesc :=
  ((empty : Table smallDesc).insert (0 : Fin 3) (0 : Fin 3) 1 1).toOption.getD .empty

theorem oneRow_ok : oneRow.Ok 1 1 := by
  have hempty : (empty : Table smallDesc).Ok 1 1 := ok_empty 1
  obtain ⟨T,hT,hfollows⟩ := hempty.insert (0 : Fin 3) (0 : Fin 3)
  have heq : oneRow = T := by simp [oneRow,hT,Except.toOption]
  rw [heq]
  exact hfollows.ok

/-- The value of a deleted row goes to another one, and is changed. -/
def moved : List (Write smallDesc Unit) :=
  [.remove (0 : Fin 3),.insert (1 : Fin 3) (0 : Fin 3),.withMut (1 : Fin 3) fun _ => ((1 : Fin 3),())]

theorem txn_index_exact_iff_moved :
    AtEveryState (Write.run 2 1) (IndexExact 2) moved oneRow ∧
      ∃ os T₁ T₂, runAll (Write.run 2 1) moved oneRow = .ok (os,T₁) ∧ T₁.commitTxn 2 = .ok T₂ ∧
        T₂.IndexExact 2 :=
  (txn_index_exact_iff (by decide) oneRow_ok (by decide +kernel) moved (by decide +kernel)).mp
    (by decide +kernel)

/-- The value of a deleted row goes to another one, and the row is deleted again. -/
def removedTwice : List (Write smallDesc Unit) :=
  [.remove (0 : Fin 3),.insert (1 : Fin 3) (0 : Fin 3),.remove (0 : Fin 3)]

/-- The second removal takes the index entry of the other row, also after the commit. -/
theorem second_removal_disturbs_index :
    oneRow.Ok 1 1 ∧ oneRow.IndexExact 1 ∧
      AtEveryState (Write.run 2 1) (DistinctValues 2) removedTwice oneRow ∧
      ∃ T, ((runAll (Write.run 2 1) removedTwice oneRow >>= fun r => r.2.commitTxn 2) = .ok T) ∧
        T.rows.get (1 : Fin 3) 2 = .ok (some (0 : Fin 3)) ∧ (T.indexes ()).get (0 : Fin 3) 2 = .ok none :=
  ⟨oneRow_ok,by decide +kernel,by decide +kernel,Result.exists_ok_of_any (by decide +kernel)⟩

end
end Table

/-- What happens to a table outside of transactions that touch it. -/
inductive RawEvent (D : TableDesc) (R : Type)
  | call (w : Write D R)
  /-- a transaction that does not touch the table commits, so many ids after the last one -/
  | otherTxn (skipped : ℕ)

namespace RawEvent
variable {D : TableDesc} {R : Type}

/-- The state is the last committed transaction and the table. -/
def run (e : RawEvent D R) (s : TxnId × Table D) : Result (Option R × TxnId × Table D) :=
  match e with
  | call w => do
    let (o,T) ← w.run s.1 s.1 s.2
    return (o,s.1,T)
  | otherTxn skipped => do
    let txn := s.1 + skipped + 1
    if s.2.checkTxnConsistency txn then
      let T ← s.2.commitTxn txn
      return (none,txn,T)
    else return (none,s)

end RawEvent

namespace Table
variable {D : TableDesc} {R : Type} {c t : TxnId} {T : Table D}

/-- Outside of a transaction, a write keeps the indexes exact. -/
theorem Ok.exact_next_raw (h : T.Ok c c) (hexact : (T.image c c).Exact) (w : Write D R)
    (hdistinct : (w.next false (T.image c c)).Distinct) : (w.next false (T.image c c)).Exact := by
  have hsettled := h.settled
  rw [decide_eq_false (lt_irrefl c)] at hsettled
  cases w with
  | insert key value => exact hexact.insert hsettled hdistinct
  | clear => exact TableImage.exact_clear _
  | withMut key f => exact hexact.mutate hsettled hdistinct
  | remove key => exact (hexact.remove_iff hsettled).mpr (TableImage.not_stale_of_quiet hsettled)

/-- A transaction that does not touch the table commits it as it is. -/
theorem Ok.otherTxn (h : T.Ok c c) (skipped : ℕ) :
    ∃ T', (RawEvent.otherTxn skipped : RawEvent D R).run (c,T) = .ok (none,c + skipped + 1,T') ∧
      T'.Ok (c + skipped + 1) (c + skipped + 1) ∧
      T'.image (c + skipped + 1) (c + skipped + 1) = (T.image c c).commit := by
  have hct : c ≤ c + skipped + 1 := (Nat.le_add_right c skipped).trans (Nat.le_succ _)
  obtain ⟨hok,himage,-⟩ := h.begin hct
  obtain ⟨T',hT',hok',himage',-⟩ := hok.commitTxn
  refine ⟨T',by simp [RawEvent.run,hok.check,hT'],hok',?_⟩
  rw [himage',himage]

/-- Every event returns, and the indexes stay exact if rows do not share values. -/
theorem Ok.rawEvent (h : T.Ok c c) (e : RawEvent D R) :
    ∃ o c' T', e.run (c,T) = .ok (o,c',T') ∧ T'.Ok c' c' ∧
      ((T.image c c).Exact → (T'.image c' c').Distinct → (T'.image c' c').Exact) := by
  cases e with
  | call w =>
    obtain ⟨T',hT',hfollows⟩ := Write.run_spec h w
    have himage := hfollows.image
    rw [decide_eq_false (lt_irrefl c)] at himage
    refine ⟨_,c,T',by simp [RawEvent.run,hT']; rfl,hfollows.ok,fun hexact hdistinct => ?_⟩
    rw [himage] at hdistinct ⊢
    exact h.exact_next_raw hexact w hdistinct
  | otherTxn skipped =>
    obtain ⟨T',hT',hok',himage'⟩ := h.otherTxn skipped
    refine ⟨none,c + skipped + 1,T',hT',hok',fun hexact _ => ?_⟩
    rw [himage']
    exact hexact.commit

/-- A table outside of a transaction, after the given commit. -/
def Quiet (s : TxnId × Table D) : Prop := s.2.Ok s.1 s.1

theorem Quiet.exists_run {s : TxnId × Table D} (h : Quiet s) (es : List (RawEvent D R)) :
    ∃ os s', runAll RawEvent.run es s = .ok (os,s') ∧ Quiet s' := by
  refine runAll_total (fun e s h => ?_) es h
  obtain ⟨o,c',T',hT',hok',-⟩ := Ok.rawEvent h e
  exact ⟨o,(c',T'),hT',hok'⟩

theorem Quiet.indexExact_run {s : TxnId × Table D} (h : Quiet s) (hexact : (s.2.image s.1 s.1).Exact)
    (es : List (RawEvent D R))
    (hdistinct : AtEveryState RawEvent.run (fun s => s.2.DistinctValues s.1) es s) :
    AtEveryState RawEvent.run (fun s => s.2.IndexExact s.1) es s := by
  induction es generalizing s with
  | nil => exact (Ok.indexExact_iff h).mpr hexact
  | cons e es ih =>
    obtain ⟨o,c',T',hT',hok',hnext⟩ := Ok.rawEvent h e
    have hrest := (forall_step_iff hT').mp hdistinct.2
    have hexact' : (T'.image c' c').Exact := hnext hexact (hok'.distinctValues_iff.mp hrest.first)
    exact ⟨(Ok.indexExact_iff h).mpr hexact,(forall_step_iff hT').mpr (ih hok' hexact' hrest)⟩

/-- Writes outside of transactions and commits of other transactions keep the indexes of a table
exact, from the empty table on, as long as rows do not share index values. -/
theorem raw_index_exact (c : TxnId) (es : List (RawEvent D R))
    (hdistinct : AtEveryState RawEvent.run (fun s => s.2.DistinctValues s.1) es (c,empty)) :
    AtEveryState RawEvent.run (fun s => s.2.IndexExact s.1) es (c,empty) ∧
      ∃ os s, runAll RawEvent.run es (c,empty) = .ok (os,s) := by
  have hempty : Quiet (c,(empty : Table D)) := ok_empty c
  obtain ⟨os,s,hs,-⟩ := hempty.exists_run es
  exact ⟨hempty.indexExact_run (fun i => indexOf_empty (D.values i)) es hdistinct,os,s,hs⟩

/-- A row is written before and after the commit of another transaction, and its value goes to
another row. -/
def rawMoves : List (RawEvent smallDesc Unit) :=
  [.call (.insert (0 : Fin 3) (0 : Fin 3)),.otherTxn 1,.call (.withMut (0 : Fin 3) fun _ => ((1 : Fin 3),())),
    .call (.remove (0 : Fin 3)),.call (.insert (2 : Fin 3) (1 : Fin 3))]

theorem raw_index_exact_moves :
    AtEveryState RawEvent.run (fun s => s.2.IndexExact s.1) rawMoves (1,empty) ∧
      ∃ os s, runAll RawEvent.run rawMoves (1,empty) = .ok (os,s) :=
  raw_index_exact 1 rawMoves (by decide +kernel)

end Table
end Tailnet.KvStore
