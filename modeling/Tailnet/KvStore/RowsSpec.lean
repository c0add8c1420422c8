import Tailnet.KvStore.Image
import Tailnet.KvStore.Rows

/-! The rows of a table under the calls of one transaction. `Ok` is the invariant of the versions,
the mask and the list of written keys. Under it no call panics, and each one changes what the table
shows as the call on images says. -/
namespace Tailnet.KvStore
open Function Assoc VersionedValue
namespace Rows
variable {K V : Type} [DecidableEq K]

/-- The rows of a map that a transaction sees. -/
def seenAt (t : TxnId) (data : Assoc K (VersionedValue V)) (k : K) : Option V :=
  (data.get k).bind fun v => v.get t

/-- All versions are committed or of the transaction. -/
def DataOk (c t : TxnId) (data : Assoc K (VersionedValue V)) : Prop :=
  ∀ k v, data.get k = some v → v.Within c t ∧ v.isEmpty = false

def MaskOk (c t : TxnId) (data : Assoc K (VersionedValue V)) : DeleteMask K V → Prop
  | .none => True
  | .all id present => id = t ∧ c < t ∧ ∀ k v, present.get k = some v → ∃ x, v = .new x t
  | .some id removed => id = t ∧ c < t ∧ ∀ k ∈ removed, (data.get k).isSome = true

/-- The state of a table in the transaction `t`, or outside of one if it is the last committed one. -/
structure Ok (c t : TxnId) (r : Rows K V) : Prop where
  le : c ≤ t
  data : DataOk c t r.data
  mask : MaskOk c t r.data r.deleteMask
  modified : ∀ m, r.modified = some m → m.txn = t ∧ c < t

/-- The transaction knows the keys of all rows that have a version of it. -/
def Recorded (c t : TxnId) (r : Rows K V) : Prop :=
  c < t → ∀ k v, r.data.get k = some v → t ∈ v.ids → ∃ m, r.modified = some m ∧ k ∈ m.keys

def maskImage (t : TxnId) : DeleteMask K V → Mask K V
  | .none => .none
  | .all _ present => .all (seenAt t present)
  | .some _ removed => .some removed

def image (c t : TxnId) (r : Rows K V) : Image K V :=
  ⟨seenAt c r.data,seenAt t r.data,maskImage t r.deleteMask⟩

/-- A call returns, keeps the invariant and leads to an image. -/
def Leads (c t : TxnId) (r : Rows K V) (x : Result (Rows K V)) (s : Image K V) : Prop :=
  ∃ r', x = .ok r' ∧ r'.Ok c t ∧ r'.image c t = s ∧ (r.Recorded c t → r'.Recorded c t)

variable {r r' : Rows K V} {data data' : Assoc K (VersionedValue V)} {c t : TxnId} {k : K} {v : V} {vv : VersionedValue V}

theorem seenAt_of_get (h : data.get k = some vv) : seenAt t data k = vv.get t := by
  simp [seenAt,h]

theorem seenAt_update (h : data'.get = update data.get k (some vv)) :
    seenAt t data' = update (seenAt t data) k (vv.get t) := by
  funext k'
  by_cases hk : k' = k
  · subst hk
    simp [seenAt,h]
  · simp [seenAt,h,hk]

theorem seenAt_erase (data : Assoc K (VersionedValue V)) (k : K) :
    seenAt t (data.erase k) = update (seenAt t data) k none := by
  funext k'
  by_cases hk : k' = k
  · subst hk
    simp [seenAt,get_erase_eq]
  · simp [seenAt,get_erase_eq,hk]

theorem seenAt_empty : seenAt t (.empty : Assoc K (VersionedValue V)) = fun _ => none := by
  funext k
  simp [seenAt]

theorem DataOk.isSome_seenAt (h : DataOk c t data) (hct : c ≤ t) (k : K) :
    (seenAt t data k).isSome = (data.get k).isSome := by
  cases hk : data.get k with
  | none => simp [seenAt,hk]
  | some vv =>
    obtain ⟨hwithin,hne⟩ := h k vv hk
    rw [seenAt_of_get hk]
    exact hwithin.get_isSome hct hne

theorem DataOk.update (h : DataOk c t data)
    (hget : data'.get = Function.update data.get k (some vv)) (hvv : vv.Within c t)
    (hne : vv.isEmpty = false) : DataOk c t data' := by
  intro k' w hw
  rw [hget] at hw
  by_cases hk : k' = k
  · subst hk
    rw [update_self] at hw
    cases hw
    exact ⟨hvv,hne⟩
  · rw [update_of_ne hk] at hw
    exact h k' w hw

theorem DataOk.erase (h : DataOk c t data) (k : K) : DataOk c t (data.erase k) := by
  intro k' w hw
  rw [get_erase] at hw
  split at hw
  · cases hw
  · exact h k' w hw

theorem dataOk_empty : DataOk c t (.empty : Assoc K (VersionedValue V)) := by
  intro k w hw
  cases hw

theorem MaskOk.update {mask : DeleteMask K V} (h : MaskOk c t data mask)
    (hget : data'.get = Function.update data.get k (some vv)) : MaskOk c t data' mask := by
  cases mask with
  | none => trivial
  | all id present => exact h
  | some id removed =>
    obtain ⟨hid,hct,hrows⟩ := h
    refine ⟨hid,hct,fun k' hk' => ?_⟩
    by_cases hk : k' = k
    · subst hk
      simp [hget]
    · rw [hget,update_of_ne hk]
      exact hrows k' hk'

theorem MaskOk.checkTxnId {mask : DeleteMask K V} (h : MaskOk c t data mask) :
    mask.checkTxnId t = true := by
  cases mask with
  | none => rfl
  | all id present => simpa [DeleteMask.checkTxnId] using h.1
  | some id removed => simpa [DeleteMask.checkTxnId] using h.1

theorem MaskOk.eq_none {mask : DeleteMask K V} (h : MaskOk c c data mask) : mask = .none := by
  cases mask with
  | none => rfl
  | all id present => exact absurd h.2.1 (lt_irrefl c)
  | some id removed => exact absurd h.2.1 (lt_irrefl c)

theorem Ok.settled (h : r.Ok c t) : (r.image c t).Settled (c < t) := by
  rcases h.le.lt_or_eq with hlt | rfl
  · exact .inl (decide_eq_true hlt)
  · exact .inr (by rw [image,h.mask.eq_none]; rfl)

/-- Rows with a version of the transaction are known if they are written with their key. -/
theorem recordMutation_spec (h : r.Ok c t) (key : K) :
    ∃ m, recordMutation r.modified key t c = .ok m ∧ (∀ x, m = some x → x.txn = t ∧ c < t) ∧
      (c < t → ∃ x, m = some x ∧ key ∈ x.keys ∧ ∀ y, r.modified = some y → ∀ k ∈ y.keys, k ∈ x.keys) := by
  rcases h.le.lt_or_eq with hlt | rfl
  · cases hm : r.modified with
    | none =>
      refine ⟨some ⟨t,[key]⟩,by simp [recordMutation,hlt.ne'],?_,fun _ => ⟨_,rfl,by simp,by simp⟩⟩
      rintro x ⟨⟩
      exact ⟨rfl,hlt⟩
    | some m =>
      have hid := (h.modified m hm).1
      refine ⟨some { m with keys := m.keys ++ [key] },by simp [recordMutation,hlt.ne',hid],?_,fun _ =>
        ⟨_,rfl,by simp,?_⟩⟩
      · rintro x ⟨⟩
        exact ⟨hid,hlt⟩
      · rintro y ⟨⟩ k hk
        exact List.mem_append_left [key] hk
  · refine ⟨r.modified,by simp [recordMutation],h.modified,fun hlt => absurd hlt (lt_irrefl c)⟩

/-- A version of a row that is written by the transaction and recorded. -/
theorem Ok.write (h : r.Ok c t) {mask : DeleteMask K V}
    (hget : data.get = update r.data.get k (some vv)) (hvv : vv.Within c t)
    (hv : vv.get t = some v) (hkeep : c < t → vv.get c = seenAt c r.data k)
    (hmask : MaskOk c t data mask) :
    ∃ m, recordMutation r.modified k t c = .ok m ∧ (⟨data,mask,m⟩ : Rows K V).Ok c t ∧
      (⟨data,mask,m⟩ : Rows K V).image c t =
        { (r.image c t).write (c < t) k (some v) with mask := maskImage t mask } ∧
      (r.Recorded c t → (⟨data,mask,m⟩ : Rows K V).Recorded c t) := by
  obtain ⟨m,hm,hmod,hrec⟩ := recordMutation_spec h k
  have hne : vv.isEmpty = false := isEmpty_of_get hv
  refine ⟨m,hm,⟨h.le,h.data.update hget hvv hne,hmask,hmod⟩,?_,?_⟩
  · have hseen : seenAt t data = update (seenAt t r.data) k (some v) := by
      rw [seenAt_update hget,hv]
    rcases h.le.lt_or_eq with hlt | rfl
    · -- the committed version stays
      have hbase : seenAt c data = seenAt c r.data := by
        rw [seenAt_update hget,hkeep hlt,update_eq_self]
      simp [image,Image.write,hlt,hbase,hseen]
    · simp [image,Image.write,hseen]
  · intro hrecorded hlt k' w hw hmem
    obtain ⟨x,hx,hkx,hold⟩ := hrec hlt
    refine ⟨x,hx,?_⟩
    by_cases hk : k' = k
    · subst hk
      exact hkx
    · have hw' : r.data.get k' = some w := by
        rw [show (⟨data,mask,m⟩ : Rows K V).data = data from rfl,hget,update_of_ne hk] at hw
        exact hw
      obtain ⟨y,hy,hmemy⟩ := hrecorded hlt k' w hw' hmem
      exact hold y hy k' hmemy

/-- What a read of the mask says of the rows that the transaction sees. -/
theorem Ok.maskGet (h : r.Ok c t) (k : K) :
    ∃ status, r.deleteMask.get k t = .ok status ∧
      match status with
      | .unknown => (∀ id present, r.deleteMask ≠ .all id present) ∧
        (r.image c t).view k = seenAt t r.data k
      | .removed => (r.image c t).view k = none
      | .overwritten x => (∃ id present, r.deleteMask = .all id present ∧ seenAt t present k = some x) ∧
        (r.image c t).view k = some x := by
  have hcheck := h.mask.checkTxnId
  have hmask := h.mask
  cases hm : r.deleteMask with
  | none => exact ⟨.unknown,rfl,by simp,by simp [image,hm,maskImage,Image.view]⟩
  | all id present =>
    rw [hm] at hmask hcheck
    obtain ⟨rfl,-,hrows⟩ := hmask
    cases hk : present.get k with
    | none =>
      refine ⟨.removed,by simp [DeleteMask.get,hcheck,hk],?_⟩
      simp [image,hm,maskImage,Image.view,seenAt,hk]
    | some vv =>
      obtain ⟨x,rfl⟩ := hrows k vv hk
      refine ⟨.overwritten x,by simp [DeleteMask.get,hcheck,hk],⟨id,present,rfl,by simp [seenAt,hk]⟩,?_⟩
      simp [image,hm,maskImage,Image.view,seenAt,hk]
  | some id removed =>
    rw [hm] at hmask hcheck
    obtain ⟨rfl,-,-⟩ := hmask
    by_cases hk : k ∈ removed
    · refine ⟨.removed,by simp [DeleteMask.get,hcheck,hk],?_⟩
      simp [image,hm,maskImage,Image.view,hk]
    · refine ⟨.unknown,by simp [DeleteMask.get,hcheck,hk],by simp,?_⟩
      simp [image,hm,maskImage,Image.view,hk]

theorem Ok.get (h : r.Ok c t) (k : K) : r.get k t = .ok ((r.image c t).view k) := by
  obtain ⟨status,hstatus,hview⟩ := h.maskGet k
  cases status with
  | unknown => simp [Rows.get,hstatus,hview.2,seenAt]
  | removed => simp [Rows.get,hstatus,hview]
  | overwritten x => simp [Rows.get,hstatus,hview.2]

variable {R : Type}

theorem Ok.mutData (h : r.Ok c t) (k : K) (f : V → V × R) : ∃ r', r.mutData k f t c =
        .ok ((seenAt t r.data k).map fun v => (v,(f v).1,(f v).2),r') ∧ r'.Ok c t ∧
      r'.image c t = (match seenAt t r.data k with
        | none => r.image c t
        | some v => (r.image c t).write (c < t) k (some (f v).1)) ∧ (r.Recorded c t → r'.Recorded c t) := by
  cases hk : r.data.get k with
  | none => exact ⟨r,by simp [Rows.mutData,seenAt,hk],h,by simp [seenAt,hk],id⟩
  | some vv =>
    obtain ⟨hwithin,hne⟩ := h.data k vv hk
    obtain ⟨x,vv',hclone,hx,-,hwithin',-,hkeep⟩ := hwithin.internalClone h.le hne
    have hseen : seenAt t r.data k = some x := (seenAt_of_get hk).trans hx
    have hget := get_adjust_eq hk (vv'.set (f x).1 t)
    obtain ⟨m,hm,hok,himage,hrec⟩ := h.write hget (hwithin'.set (f x).1) (hwithin'.get_set (f x).1)
      (fun hlt => by rw [hwithin'.get_set_committed hlt,hkeep hlt,seenAt_of_get hk])
      (h.mask.update hget)
    refine ⟨_,?_,hok,?_,hrec⟩
    · simp [Rows.mutData,hk,hclone,hm,hseen]
    · rw [himage,hseen]
      rfl

theorem Ok.withMask (h : r.Ok c t) {mask : DeleteMask K V} {m : Option (TxnMutations K)}
    (hmask : MaskOk c t r.data mask) (hm : ∀ x, m = some x → x.txn = t ∧ c < t)
    (hkeys : c < t → ∀ y, r.modified = some y → ∃ x, m = some x ∧ ∀ k ∈ y.keys, k ∈ x.keys) :
    (⟨r.data,mask,m⟩ : Rows K V).Ok c t ∧ (r.Recorded c t → (⟨r.data,mask,m⟩ : Rows K V).Recorded c t) := by
  refine ⟨⟨h.le,h.data,hmask,hm⟩,fun hrec hlt k v hk hmem => ?_⟩
  obtain ⟨y,hy,hky⟩ := hrec hlt k v hk hmem
  obtain ⟨x,hx,hsub⟩ := hkeys hlt y hy
  exact ⟨x,hx,hsub k hky⟩

/-- A new row of a transaction that has deleted all others. -/
theorem MaskOk.present {id : TxnId} {present present' : Assoc K (VersionedValue V)}
    (h : MaskOk c t data (.all id present))
    (hget : present'.get = Function.update present.get k (some (.new v t))) :
    MaskOk c t data (.all id present') ∧
      seenAt t present' = Function.update (seenAt t present) k (some v) := by
  refine ⟨⟨h.1,h.2.1,fun k' w hw => ?_⟩,?_⟩
  · by_cases hk : k' = k
    · subst hk
      rw [hget,update_self] at hw
      cases hw
      exact ⟨v,rfl⟩
    · rw [hget,update_of_ne hk] at hw
      exact h.2.2 k' w hw
  · rw [seenAt_update hget,get_new]

theorem Ok.mutPresent (h : r.Ok c t) {id : TxnId} {present : Assoc K (VersionedValue V)}
    (hm : r.deleteMask = .all id present) (hk : seenAt t present k = some v) (f : V → V × R) :
    ∃ r', r.mutPresent id present k v f t c = .ok (some (v,(f v).1,(f v).2),r') ∧ r'.Ok c t ∧
      r'.image c t = (r.image c t).set (c < t) k (f v).1 ∧ (r.Recorded c t → r'.Recorded c t) := by
  have hmask := h.mask
  rw [hm] at hmask
  obtain ⟨m,hrecord,hmod,hkeys⟩ := recordMutation_spec h k
  obtain ⟨vv,hvv,hget⟩ := Option.bind_eq_some_iff.mp hk
  obtain ⟨x,rfl⟩ := hmask.2.2 k vv hvv
  have hnew : (present.adjust k fun w => w.getMut t fun _ => (f v).1).get =
      update present.get k (some (.new (f v).1 t)) := by
    funext k'
    rw [get_adjust,hvv,update_apply,Option.map_some,getMut_new]
  obtain ⟨hmask',hseen'⟩ := hmask.present hnew
  obtain ⟨hok,hrec⟩ := h.withMask hmask' hmod fun hlt y hy => by
    obtain ⟨x,hx,-,hold⟩ := hkeys hlt
    exact ⟨x,hx,hold y hy⟩
  refine ⟨_,by simp only [Rows.mutPresent,hrecord,Result.bind_of_ok]; rfl,hok,?_,hrec⟩
  simp [image,Image.set,hm,maskImage,hseen']

theorem set_eq_write (hm : ∀ id present, r.deleteMask ≠ .all id present) (inTxn : Bool) (k : K) (v : V) :
    (r.image c t).set inTxn k v = (r.image c t).write inTxn k (some v) := by
  cases hmask : r.deleteMask with
  | none => simp [Image.set,image,hmask,maskImage]
  | all id present => exact absurd hmask (hm id present)
  | some id removed => simp [Image.set,image,hmask,maskImage]

theorem Ok.withMut (h : r.Ok c t) (k : K) (f : V → V × R) : ∃ r', r.withMut k f t c =
        .ok (((r.image c t).view k).map fun v => (v,(f v).1,(f v).2),r') ∧ r'.Ok c t ∧
      r'.image c t = (r.image c t).mutate (c < t) k (fun v => (f v).1) ∧
      (r.Recorded c t → r'.Recorded c t) := by
  obtain ⟨status,hstatus,hview⟩ := h.maskGet k
  cases status with
  | unknown =>
    obtain ⟨hm,hv⟩ := hview
    obtain ⟨r',hr',hok,himage,hrec⟩ := h.mutData k f
    refine ⟨r',by simp [Rows.withMut,hstatus,hr',hv],hok,?_,hrec⟩
    rw [himage,Image.mutate,hv]
    cases seenAt t r.data k with
    | none => rfl
    | some v => exact (set_eq_write hm _ k _).symm
  | removed =>
    exact ⟨r,by simp [Rows.withMut,hstatus,hview],h,by simp [Image.mutate,hview],id⟩
  | overwritten x =>
    obtain ⟨⟨id,present,hm,hk⟩,hv⟩ := hview
    obtain ⟨r',hr',hok,himage,hrec⟩ := h.mutPresent hm hk f
    refine ⟨r',by rw [hm] at hstatus; simp [Rows.withMut,hstatus,hm,hr',hv],hok,?_,hrec⟩
    rw [himage,Image.mutate,hv]

/-- One step of an iteration for writing. A deleted row that the iterator has cloned is not known to
the transaction. -/
theorem Ok.mutNext (h : r.Ok c t) (k : K) (f : V → V × R) : ∃ r', r.mutNext k f t c =
        .ok (((r.image c t).view k).map fun v => (v,(f v).1,(f v).2),r') ∧ r'.Ok c t ∧
      r'.image c t = (r.image c t).mutate (c < t) k (fun v => (f v).1) ∧
      ((∀ removed, (r.image c t).mask = .some removed → k ∉ removed) →
        r.Recorded c t → r'.Recorded c t) := by
  obtain ⟨rd,hrd,hokd,himaged,hrecd⟩ := h.mutData k f
  cases hm : r.deleteMask with
  | none =>
    have hv : (r.image c t).view k = seenAt t r.data k := by simp [Image.view,image,hm,maskImage]
    refine ⟨rd,by simp [Rows.mutNext,hm,hrd,hv],hokd,?_,fun _ => hrecd⟩
    rw [himaged,Image.mutate,hv]
    cases seenAt t r.data k with
    | none => rfl
    | some v => exact (set_eq_write (by simp [hm]) _ k _).symm
  | all id present =>
    have hv : (r.image c t).view k = seenAt t present k := by simp [Image.view,image,hm,maskImage]
    cases hk : seenAt t present k with
    | none =>
      rw [seenAt] at hk
      refine ⟨r,?_,h,?_,fun _ hrec => hrec⟩
      · simp [Rows.mutNext,hm,hk,hv,seenAt]
      · simp [Image.mutate,hv,seenAt,hk]
    | some v =>
      obtain ⟨r',hr',hok,himage,hrec⟩ := h.mutPresent hm hk f
      refine ⟨r',?_,hok,?_,fun _ => hrec⟩
      · rw [seenAt] at hk
        simp [Rows.mutNext,hm,hk,hr',hv,seenAt]
      · simp [himage,Image.mutate,hv,hk]
  | some id removed =>
    by_cases hk : k ∈ removed
    · have hv : (r.image c t).view k = none := by simp [Image.view,image,hm,maskImage,hk]
      have hmask := h.mask
      rw [hm] at hmask
      obtain ⟨vv,hvv⟩ := Option.isSome_iff_exists.mp (hmask.2.2 k hk)
      obtain ⟨hwithin,hne⟩ := h.data k vv hvv
      obtain ⟨x,vv',hclone,hx,hx',hwithin',hne',hkeep⟩ := hwithin.internalClone h.le hne
      have hget := get_adjust_eq hvv vv'
      refine ⟨{ r with data := r.data.adjust k fun _ => vv' },?_,
        ⟨h.le,h.data.update hget hwithin' hne',h.mask.update hget,h.modified⟩,?_,fun hno =>
        absurd hk (hno removed (by simp [image,hm,maskImage]))⟩
      · simp [Rows.mutNext,hm,hk,hvv,hclone,hv]
      · have hseen : seenAt t (r.data.adjust k fun _ => vv') = seenAt t r.data := by
          rw [seenAt_update hget,hx',← hx,← seenAt_of_get hvv,update_eq_self]
        have hbase : seenAt c (r.data.adjust k fun _ => vv') = seenAt c r.data := by
          rw [seenAt_update hget,hkeep hmask.2.1,← seenAt_of_get hvv,update_eq_self]
        rw [Image.mutate_of_none hv]
        simp [image,hseen,hbase]
    · have hv : (r.image c t).view k = seenAt t r.data k := by simp [Image.view,image,hm,maskImage,hk]
      refine ⟨rd,by simp [Rows.mutNext,hm,hk,hrd,hv],hokd,?_,fun _ => hrecd⟩
      rw [himaged,Image.mutate,hv]
      cases seenAt t r.data k with
      | none => rfl
      | some v => exact (set_eq_write (by simp [hm]) _ k _).symm

theorem Ok.insert (h : r.Ok c t) (k : K) (v : V) :
    Leads c t r (r.insert k v t c) ((r.image c t).insert (c < t) k v) := by
  have hcheck := h.mask.checkTxnId
  have hmask := h.mask
  have hwithin : ((r.data.get k).getD .empty).Within c t := by
    cases hk : r.data.get k with
    | none => exact within_empty
    | some vv => exact (h.data k vv hk).1
  have hkeep : c < t → (((r.data.get k).getD .empty).set v t).get c = seenAt c r.data k := by
    intro hlt
    rw [hwithin.get_set_committed hlt,seenAt]
    cases r.data.get k <;> rfl
  have hget := get_insert_eq r.data k (((r.data.get k).getD .empty).set v t)
  cases hm : r.deleteMask with
  | none =>
    rw [hm] at hmask
    obtain ⟨m,hrecord,hok,himage,hrec⟩ := h.write hget (hwithin.set v) (hwithin.get_set v) hkeep
      (hmask.update hget)
    refine ⟨_,by simp [Rows.insert,hm,DeleteMask.insert,DeleteMask.checkTxnId,hrecord],hok,?_,hrec⟩
    rw [himage]
    simp [Image.insert,Image.set,image,hm,maskImage,Image.write]
  | all id present =>
    rw [hm] at hmask hcheck
    obtain ⟨hmask',hseen'⟩ := hmask.present (get_insert_eq present k (.new v t))
    obtain ⟨hok,hrec⟩ := h.withMask hmask' h.modified fun _ y hy => ⟨y,hy,fun _ hk => hk⟩
    refine ⟨_,by simp [Rows.insert,hm,DeleteMask.insert,hcheck],hok,?_,hrec⟩
    simp [Image.insert,Image.set,image,hm,maskImage,hseen']
  | some id removed =>
    rw [hm] at hmask hcheck
    have hmask' : MaskOk c t (r.data.insert k (((r.data.get k).getD .empty).set v t))
        (.some id (removed.erase k)) := by
      have hold := hmask.update hget
      exact ⟨hold.1,hold.2.1,fun k' hk' => hold.2.2 k' (Finset.mem_of_mem_erase hk')⟩
    obtain ⟨m,hrecord,hok,himage,hrec⟩ := h.write hget (hwithin.set v) (hwithin.get_set v) hkeep hmask'
    refine ⟨_,by simp [Rows.insert,hm,DeleteMask.insert,hcheck,hrecord],hok,?_,hrec⟩
    rw [himage]
    simp [Image.insert,image,hm,maskImage]

theorem Ok.maskRemove (h : r.Ok c t) (hlt : c < t) (k : K) :
    ∃ o mask, r.deleteMask.remove k t r.data = .ok (o,mask) ∧ MaskOk c t r.data mask ∧
      maskImage t mask = ((r.image c t).remove true k).mask ∧
      o.or (seenAt t r.data k) = (r.image c t).removed true k := by
  have hcheck := h.mask.checkTxnId
  have hmask := h.mask
  have hsome := h.data.isSome_seenAt h.le k
  cases hm : r.deleteMask with
  | none =>
    cases hk : seenAt t r.data k with
    | none =>
      refine ⟨none,.none,?_,trivial,?_,?_⟩
      · rw [seenAt] at hk
        simp [DeleteMask.remove,DeleteMask.checkTxnId,hk]
      · simp [Image.remove,image,hm,hk,maskImage]
      · simp [Image.removed,image,hm,hk,maskImage]
    | some x =>
      refine ⟨none,.some t {k},?_,⟨rfl,hlt,?_⟩,?_,?_⟩
      · rw [seenAt] at hk
        simp [DeleteMask.remove,DeleteMask.checkTxnId,hk]
      · intro k' hk'
        rw [Finset.mem_singleton.mp hk',← hsome,hk]
        rfl
      · simp [Image.remove,image,hm,hk,maskImage]
      · simp [Image.removed,image,hm,hk,maskImage]
  | all id present =>
    rw [hm] at hcheck hmask
    refine ⟨seenAt t present k,.all id (present.erase k),?_,⟨hmask.1,hlt,?_⟩,?_,?_⟩
    · simp [DeleteMask.remove,hcheck,take_fst,seenAt]
    · intro k' v hv
      rw [get_erase] at hv
      split at hv
      · cases hv
      · exact hmask.2.2 k' v hv
    · simp [Image.remove,image,hm,maskImage,seenAt_erase]
    · simp [Image.removed,image,hm,maskImage]
  | some id removed =>
    rw [hm] at hcheck hmask
    cases hk : seenAt t r.data k with
    | none =>
      refine ⟨none,.some id removed,?_,hmask,?_,?_⟩
      · rw [seenAt] at hk
        simp [DeleteMask.remove,hcheck,hk]
      · simp [Image.remove,image,hm,hk,maskImage]
      · simp [Image.removed,image,hm,hk,maskImage]
    | some x =>
      refine ⟨none,.some id (Insert.insert k removed),?_,⟨hmask.1,hlt,?_⟩,?_,?_⟩
      · rw [seenAt] at hk
        simp [DeleteMask.remove,hcheck,hk]
      · intro k' hk'
        rcases Finset.mem_insert.mp hk' with rfl | hk'
        · rw [← hsome,hk]
          rfl
        · exact hmask.2.2 k' hk'
      · simp [Image.remove,image,hm,hk,maskImage]
      · simp [Image.removed,image,hm,hk,maskImage]

theorem Ok.remove (h : r.Ok c t) (k : K) :
    ∃ r', r.remove k t c = .ok ((r.image c t).removed (c < t) k,r') ∧ r'.Ok c t ∧
      r'.image c t = (r.image c t).remove (c < t) k ∧ (r.Recorded c t → r'.Recorded c t) := by
  rcases h.le.lt_or_eq with hlt | rfl
  · obtain ⟨o,mask,hremove,hmask,himage,ho⟩ := h.maskRemove hlt k
    obtain ⟨hok,hrec⟩ := h.withMask hmask h.modified fun _ y hy => ⟨y,hy,fun _ hk => hk⟩
    refine ⟨⟨r.data,mask,r.modified⟩,?_,hok,?_,hrec⟩
    · simp only [Rows.remove,hlt,hlt.ne',if_false,if_true,hremove,Result.bind_of_ok,decide_true,← ho]
      rfl
    · rw [decide_eq_true hlt,Image.remove_eq_mask,← himage]
      rfl
  · have hm := h.mask.eq_none
    refine ⟨{ r with data := r.data.erase k },?_,⟨h.le,h.data.erase k,?_,h.modified⟩,?_,
      fun _ hlt => absurd hlt (lt_irrefl c)⟩
    · simp [Rows.remove,take_fst,Image.removed,image,hm,maskImage,seenAt]
    · rw [hm]
      trivial
    · simp [Image.remove,image,hm,maskImage,Image.write,seenAt_erase]

theorem Ok.clear (h : r.Ok c t) : Leads c t r (r.clear t c) ((r.image c t).clear (c < t)) := by
  rcases h.le.lt_or_eq with hlt | rfl
  · have hmask : MaskOk c t r.data (.all t .empty) := ⟨rfl,hlt,fun k v hv => by cases hv⟩
    obtain ⟨hok,hrec⟩ := h.withMask hmask h.modified fun _ y hy => ⟨y,hy,fun _ hk => hk⟩
    refine ⟨_,?_,hok,?_,hrec⟩
    · simp only [Rows.clear,hlt,hlt.ne',if_false,if_true,DeleteMask.clear,h.mask.checkTxnId]
      rfl
    · simp [Image.clear,image,hlt,maskImage,seenAt_empty]
  · have hm := h.mask.eq_none
    refine ⟨{ r with data := .empty },by simp [Rows.clear],⟨h.le,dataOk_empty,?_,h.modified⟩,?_,
      fun _ hlt => absurd hlt (lt_irrefl c)⟩
    · rw [hm]
      trivial
    · simp [Image.clear,image,hm,maskImage,Image.quiet,seenAt_empty]

/-- A transaction begins: it sees the committed rows, and has written nothing. -/
theorem Ok.begin (h : r.Ok c c) (hct : c ≤ t) :
    r.Ok c t ∧ r.image c t = r.image c c ∧ r.Recorded c t := by
  have hm := h.mask.eq_none
  have hmod : r.modified = none := by
    cases hmod : r.modified with
    | none => rfl
    | some m => exact absurd (h.modified m hmod).2 (lt_irrefl c)
  refine ⟨⟨hct,fun k v hv => ⟨(h.data k v hv).1.mono le_rfl,(h.data k v hv).2⟩,?_,?_⟩,?_,?_⟩
  · rw [hm]
    trivial
  · simp [hmod]
  · have hseen : seenAt t r.data = seenAt c r.data := by
      funext k
      cases hk : r.data.get k with
      | none => simp [seenAt,hk]
      | some v => simp [seenAt,hk,(h.data k v hk).1.get_eq hct]
    simp [image,hseen,hm,maskImage]
  · intro hlt k v hk hmem
    rcases (h.data k v hk).1 t hmem with hle | heq
    · exact absurd hle (not_le.mpr hlt)
    · exact absurd heq hlt.ne'

theorem Ok.modified_all (h : r.Ok c t) : (r.modified.all fun m => m.txn = t) = true := by
  cases hmod : r.modified with
  | none => rfl
  | some m => simpa using (h.modified m hmod).1

theorem Ok.check (h : r.Ok c t) : r.checkTxnConsistency t = true := by
  simp [checkTxnConsistency,h.modified_all,h.mask.checkTxnId]

theorem ok_empty (c : TxnId) : (empty : Rows K V).Ok c c :=
  ⟨le_rfl,dataOk_empty,trivial,by simp [empty]⟩

theorem Ok.gc_image (h : r.Ok c c) : (r.image c c).gc = r.image c c := by
  simp [image,Image.gc,Image.quiet,h.mask.eq_none,maskImage]

end Rows
end Tailnet.KvStore
