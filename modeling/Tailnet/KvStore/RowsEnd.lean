import Tailnet.KvStore.RowsSpec

/-! The end of a transaction, and reads of the whole table. -/
namespace Tailnet.KvStore
open List Assoc
namespace Rows
variable {K V : Type} [DecidableEq K] {r : Rows K V} {data : Assoc K (VersionedValue V)} {c t : TxnId}

theorem get_foldl_gcRow (t : TxnId) (keys : List K) (data : Assoc K (VersionedValue V)) (k : K) :
    (keys.foldl (gcRow t) data).get k =
      if k ∈ keys then (data.get k).bind fun v => v.collect t else data.get k :=
  get_foldl_revise VersionedValue.collect_collect keys data k

/-- Rows without the versions of a transaction that knows them all are the committed rows. -/
theorem DataOk.gc (h : DataOk c t data) (hlt : c < t) {keys : List K}
    (hkeys : ∀ k v, data.get k = some v → t ∈ v.ids → k ∈ keys) :
    DataOk c c (keys.foldl (gcRow t) data) ∧ seenAt c (keys.foldl (gcRow t) data) = seenAt c data := by
  refine ⟨fun k v hv => ?_,funext fun k => ?_⟩
  · rw [get_foldl_gcRow] at hv
    split at hv
    · obtain ⟨w,hw,hcollect⟩ := Option.bind_eq_some_iff.mp hv
      obtain ⟨rfl,hne⟩ := VersionedValue.collect_eq_some.mp hcollect
      exact ⟨(h k w hw).1.gcTxn,hne⟩
    · rename_i hk
      exact ⟨(h k v hv).1.of_notMem fun hmem => hk (hkeys k v hv hmem),(h k v hv).2⟩
  · rw [seenAt,get_foldl_gcRow,seenAt]
    split
    · cases hv : data.get k with
      | none => rfl
      | some v => exact (h k v hv).1.get_collect hlt
    · rfl

/-- A transaction that knows its rows is dropped without a trace. -/
theorem Ok.gcTxn (h : r.Ok c t) (hlt : c < t) (hrec : r.Recorded c t) :
    ∃ r', r.gcTxn t = .ok r' ∧ r'.Ok c c ∧ r'.image c c = (r.image c t).gc := by
  cases hm : r.modified with
  | none =>
    have hkeys : ∀ k v, r.data.get k = some v → t ∈ v.ids → k ∈ ([] : List K) := by
      intro k v hv hmem
      obtain ⟨m,hm',-⟩ := hrec hlt k v hv hmem
      rw [hm] at hm'
      cases hm'
    obtain ⟨hdata,-⟩ := h.data.gc hlt hkeys
    exact ⟨{ r with deleteMask := .none },by simp [Rows.gcTxn,hm],
      ⟨le_rfl,hdata,trivial,by simp [hm]⟩,rfl⟩
  | some m =>
    have hid := (h.modified m hm).1
    have hkeys : ∀ k v, r.data.get k = some v → t ∈ v.ids → k ∈ m.keys := by
      intro k v hv hmem
      obtain ⟨m',hm',hkm⟩ := hrec hlt k v hv hmem
      rw [hm] at hm'
      cases hm'
      exact hkm
    obtain ⟨hdata,hseen⟩ := h.data.gc hlt hkeys
    refine ⟨⟨m.keys.foldl (gcRow t) r.data,.none,none⟩,by simp [Rows.gcTxn,hm,hid],
      ⟨le_rfl,hdata,trivial,by simp⟩,?_⟩
    simp [image,Image.gc,Image.quiet,hseen,maskImage]

theorem Ok.commitTxn (h : r.Ok c t) :
    ∃ r', r.commitTxn t = .ok r' ∧ r'.Ok t t ∧ r'.image t t = (r.image c t).commit := by
  have hmod := h.modified_all
  have hmask := h.mask
  have hdata : DataOk t t r.data := fun k v hv => ⟨(h.data k v hv).1.committed h.le,(h.data k v hv).2⟩
  cases hm : r.deleteMask with
  | none =>
    refine ⟨⟨r.data,.none,none⟩,by simp [Rows.commitTxn,hmod,hm],⟨le_rfl,hdata,trivial,by simp⟩,?_⟩
    simp [image,Image.commit,Image.quiet,maskImage,funext_iff,Image.view,hm]
  | all id present =>
    rw [hm] at hmask
    refine ⟨⟨present,.none,none⟩,by simp [Rows.commitTxn,hmod,hm,hmask.1],
      ⟨le_rfl,fun k v hv => ?_,trivial,by simp⟩,?_⟩
    · obtain ⟨x,rfl⟩ := hmask.2.2 k v hv
      exact ⟨VersionedValue.within_new x,rfl⟩
    · simp [image,Image.commit,Image.quiet,maskImage,funext_iff,Image.view,hm]
  | some id removed =>
    rw [hm] at hmask
    refine ⟨⟨r.data.eraseAll removed,.none,none⟩,by simp [Rows.commitTxn,hmod,hm,hmask.1],
      ⟨le_rfl,fun k v hv => ?_,trivial,by simp⟩,?_⟩
    · rw [get_eraseAll] at hv
      split at hv
      · cases hv
      · exact hdata k v hv
    · have hseen : seenAt t (r.data.eraseAll removed) =
          fun k => if k ∈ removed then none else seenAt t r.data k := by
        funext k
        by_cases hk : k ∈ removed <;> simp [seenAt,get_eraseAll,hk]
      simp [image,Image.commit,Image.quiet,maskImage,funext_iff,Image.view,hm,hseen]

section
variable {ord : KeyOrder K} {entries : List (K × VersionedValue V)}

omit [DecidableEq K] in
theorem mem_iterData {k : K} {v : V} :
    (k,v) ∈ iterData t entries ↔ ∃ w, (k,w) ∈ entries ∧ w.get t = some v := by
  simp [iterData,mem_filterMap]

omit [DecidableEq K] in
theorem map_fst_iterData_sublist (t : TxnId) (entries : List (K × VersionedValue V)) :
    ((iterData t entries).map Prod.fst).Sublist (entries.map Prod.fst) := by
  induction entries with
  | nil => exact List.Sublist.slnil
  | cons e entries ih =>
    cases he : e.2.get t with
    | none =>
      have hcons : iterData t (e::entries) = iterData t entries := by simp [iterData,he]
      rw [hcons]
      exact ih.trans (sublist_cons_self _ _)
    | some v =>
      have hcons : iterData t (e::entries) = (e.1,v)::iterData t entries := by simp [iterData,he]
      rw [hcons]
      exact ih.cons_cons _

omit [DecidableEq K] in
theorem map_fst_iterData (h : ∀ e ∈ entries, (e.2.get t).isSome = true) :
    (iterData t entries).map Prod.fst = entries.map Prod.fst := by
  induction entries with
  | nil => rfl
  | cons e entries ih =>
    obtain ⟨v,hv⟩ := Option.isSome_iff_exists.mp (h e mem_cons_self)
    have hcons : iterData t (e::entries) = (e.1,v)::iterData t entries := by simp [iterData,hv]
    rw [hcons,map_cons,map_cons,ih fun e he => h e (mem_cons_of_mem _ he)]

/-- A list of rows in the order of the keys, each key once. -/
structure InOrder (ord : KeyOrder K) (l : List (K × V)) : Prop where
  sorted : (l.map Prod.fst).Pairwise fun a b => ord.le a b
  nodup : (l.map Prod.fst).Nodup

omit [DecidableEq K] in
theorem inOrder_iterData (m : Assoc K (VersionedValue V)) {l : List (K × VersionedValue V)}
    (h : l.Sublist (m.sorted ord)) : InOrder ord (iterData t l) := by
  have hkeys := (map_fst_iterData_sublist t l).trans (h.map Prod.fst)
  exact ⟨(pairwise_map.mpr (m.pairwise_sorted ord)).sublist hkeys,(m.nodup_sorted ord).sublist hkeys⟩

theorem inOrder_iter (r : Rows K V) (ord : KeyOrder K) (t : TxnId) : InOrder ord (r.iter ord t) := by
  cases hm : r.deleteMask with
  | none => simpa [iter,hm] using inOrder_iterData r.data (List.Sublist.refl _)
  | all id present => simpa [iter,hm] using inOrder_iterData present (List.Sublist.refl _)
  | some id removed => simpa [iter,hm] using inOrder_iterData r.data filter_sublist

theorem mem_iterData_sorted (m : Assoc K (VersionedValue V)) {k : K} {v : V} :
    (k,v) ∈ iterData t (m.sorted ord) ↔ seenAt t m k = some v := by
  simp [mem_iterData,mem_sorted,seenAt,Option.bind_eq_some_iff]

theorem mem_iter (r : Rows K V) {k : K} {v : V} :
    (k,v) ∈ r.iter ord t ↔ (r.image c t).view k = some v := by
  cases hm : r.deleteMask with
  | none => simp [iter,hm,mem_iterData_sorted,Image.view,image,maskImage]
  | all id present => simp [iter,hm,mem_iterData_sorted,Image.view,image,maskImage]
  | some id removed =>
    by_cases hk : k ∈ removed
    · simp [iter,hm,mem_iterData,Image.view,image,maskImage,hk]
    · simp [iter,hm,mem_iterData,mem_sorted,Image.view,image,maskImage,hk,seenAt,
        Option.bind_eq_some_iff]

theorem DataOk.visible (h : DataOk c t data) (hct : c ≤ t) {e : K × VersionedValue V}
    (he : data.get e.1 = some e.2) : (e.2.get t).isSome = true := by
  obtain ⟨hwithin,hne⟩ := h e.1 e.2 he
  exact hwithin.get_isSome hct hne

theorem DataOk.length_iterData (h : DataOk c t data) (hct : c ≤ t) {l : List (K × VersionedValue V)}
    (hl : ∀ e ∈ l, data.get e.1 = some e.2) : (iterData t l).length = l.length := by
  have hkeys := map_fst_iterData (t := t) fun e he => h.visible hct (hl e he)
  have hlength := congrArg List.length hkeys
  rwa [length_map,length_map] at hlength

theorem Ok.presentOk (h : r.Ok c t) {id : TxnId} {present : Assoc K (VersionedValue V)}
    (hm : r.deleteMask = .all id present) : DataOk c t present := by
  have hmask := h.mask
  rw [hm] at hmask
  intro k v hv
  obtain ⟨x,rfl⟩ := hmask.2.2 k v hv
  exact ⟨VersionedValue.within_new x,rfl⟩

/-- The rows are counted right, and the subtraction does not overflow. -/
theorem Ok.len (h : r.Ok c t) (ord : KeyOrder K) : r.len t = .ok (r.iter ord t).length := by
  have hdata : (iterData t r.data.entries).length = r.data.entries.length :=
    h.data.length_iterData h.le fun e he => mem_entries.mp he
  have hsorted : (iterData t (r.data.sorted ord)).length = r.data.entries.length := by
    rw [h.data.length_iterData h.le fun e he => mem_sorted.mp he,length_sorted]
  cases hm : r.deleteMask with
  | none => simp [Rows.len,iter,hm,hdata,hsorted]
  | all id present =>
    have hpresent : (iterData t (present.sorted ord)).length = present.entries.length := by
      rw [(h.presentOk hm).length_iterData h.le fun e he => mem_sorted.mp he,length_sorted]
    simp [Rows.len,iter,hm,hpresent]
  | some id removed =>
    have hmask := h.mask
    rw [hm] at hmask
    have hremoved := length_filter_mem hmask.2.2
    have hrest : (iterData t ((r.data.sorted ord).filter fun e => e.1 ∉ removed)).length =
        (r.data.entries.filter fun e => e.1 ∉ removed).length := by
      rw [h.data.length_iterData h.le fun e he => mem_sorted.mp (mem_filter.mp he).1]
      exact ((perm_insertionSort _ r.data.entries).filter _).length_eq
    have hsplit := length_eq_length_filter_add (l := r.data.entries) fun e => e.1 ∈ removed
    simp only [decide_not] at hrest ⊢
    rw [hremoved] at hsplit
    have hle : removed.card ≤ r.data.entries.length := by omega
    simp only [Rows.len,iter,hm,hdata,Result.sub_of_le hle,decide_not,hrest]
    congr 1
    omega

theorem Ok.isEmpty (h : r.Ok c t) (ord : KeyOrder K) :
    r.isEmpty t = .ok ((r.iter ord t).length == 0) := by
  have hlen := h.len ord
  cases hm : r.deleteMask with
  | none =>
    simp only [Rows.len,hm,Except.ok.injEq] at hlen
    simp [Rows.isEmpty,hm,hlen]
  | all id present =>
    simp only [Rows.len,hm,Except.ok.injEq] at hlen
    simp only [Rows.isEmpty,hm,← hlen]
    cases present.entries <;> rfl
  | some id removed =>
    simp only [Rows.len,hm] at hlen
    cases hentries : r.data.entries with
    | nil =>
      have hnil : r.iter ord t = [] := by
        simp [iter,hm,Assoc.sorted,hentries,iterData]
      simp [Rows.isEmpty,hm,hentries,hnil]
    | cons e entries =>
      simp only [Rows.isEmpty,hm,hlen,Result.bind_of_ok]
      simp [hentries]

omit [DecidableEq K] in
theorem mutKeys_inOrder (r : Rows K V) (ord : KeyOrder K) :
    (r.mutKeys ord).Pairwise (fun a b => ord.le a b) ∧ (r.mutKeys ord).Nodup := by
  cases hm : r.deleteMask with
  | all id present =>
    simpa only [mutKeys,hm] using And.intro (pairwise_map.mpr (present.pairwise_sorted ord))
      (present.nodup_sorted ord)
  | none =>
    simpa only [mutKeys,hm] using And.intro (pairwise_map.mpr (r.data.pairwise_sorted ord))
      (r.data.nodup_sorted ord)
  | some id removed =>
    simpa only [mutKeys,hm] using And.intro (pairwise_map.mpr (r.data.pairwise_sorted ord))
      (r.data.nodup_sorted ord)

theorem mem_map_fst_sorted {m : Assoc K (VersionedValue V)} {k : K} :
    k ∈ (m.sorted ord).map Prod.fst ↔ (m.get k).isSome = true := by
  simp [mem_map,Prod.exists,mem_sorted,Option.isSome_iff_exists]

theorem Ok.mem_mutKeys (h : r.Ok c t) {k : K} :
    k ∈ r.mutKeys ord ↔ ((r.image c t).stored k).isSome = true := by
  cases hm : r.deleteMask with
  | none =>
    rw [mutKeys,hm,mem_map_fst_sorted,← h.data.isSome_seenAt h.le]
    simp [Image.stored,image,hm,maskImage]
  | all id present =>
    rw [mutKeys,hm,mem_map_fst_sorted,← (h.presentOk hm).isSome_seenAt h.le]
    simp [Image.stored,image,hm,maskImage]
  | some id removed =>
    rw [mutKeys,hm,mem_map_fst_sorted,← h.data.isSome_seenAt h.le]
    simp [Image.stored,image,hm,maskImage]

/-- The keys of an iteration for writing that the transaction sees are those of an iteration. -/
theorem Ok.filter_mutKeys (h : r.Ok c t) (ord : KeyOrder K) :
    (r.mutKeys ord).filter (fun k => ((r.image c t).view k).isSome) = (r.iter ord t).map Prod.fst := by
  obtain ⟨hsorted,hnodup⟩ := mutKeys_inOrder r ord
  have hiter := inOrder_iter r ord t
  refine ord.eq_of_sorted id (hsorted.filter _) hiter.sorted
    (by rw [map_id]; exact hnodup.filter _) (by rw [map_id]; exact hiter.nodup) fun k => ?_
  rw [mem_filter,h.mem_mutKeys]
  have hmem : k ∈ (r.iter ord t).map Prod.fst ↔ ((r.image c t).view k).isSome = true := by
    simp [mem_map,Prod.exists,mem_iter (c := c),Option.isSome_iff_exists]
  rw [hmem]
  exact ⟨fun hk => hk.2,fun hk => ⟨Image.isSome_stored hk,hk⟩⟩

/-- Reads of the whole table depend on what it shows only. -/
theorem iter_congr {r' : Rows K V} {c' t' : TxnId} (h : r.image c t = r'.image c' t') :
    r.iter ord t = r'.iter ord t' := by
  have h1 := inOrder_iter r ord t
  have h2 := inOrder_iter r' ord t'
  refine ord.eq_of_sorted Prod.fst (pairwise_map.mp h1.sorted) (pairwise_map.mp h2.sorted)
    h1.nodup h2.nodup fun ⟨k,v⟩ => ?_
  rw [mem_iter (c := c),mem_iter (c := c'),h]

theorem Ok.mutKeys_congr {r' : Rows K V} {c' t' : TxnId} (h : r.Ok c t) (h' : r'.Ok c' t')
    (himage : r.image c t = r'.image c' t') : r.mutKeys ord = r'.mutKeys ord := by
  obtain ⟨h1,hn1⟩ := mutKeys_inOrder r ord
  obtain ⟨h2,hn2⟩ := mutKeys_inOrder r' ord
  refine ord.eq_of_sorted id h1 h2 (by rwa [map_id]) (by rwa [map_id]) fun k => ?_
  rw [h.mem_mutKeys,h'.mem_mutKeys,himage]

end
end Rows
end Tailnet.KvStore
