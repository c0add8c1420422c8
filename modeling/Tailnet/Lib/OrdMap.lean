import Mathlib

/-! Finite maps kept as lists by ascending key. Inserting replaces the value of a key, so
that of several values for one key the last one stays. -/
namespace Tailnet
open List Option

structure OrdMap (K V : Type) [LinearOrder K] where
  entries : List (K × V)
  ascending : entries.Pairwise fun a b => a.1 < b.1

namespace OrdMap
variable {K V : Type} [LinearOrder K]

def empty : OrdMap K V := ⟨[],List.Pairwise.nil⟩

def insertEntry (k : K) (v : V) : List (K × V) → List (K × V)
  | [] => [(k,v)]
  | e::l => if k < e.1 then (k,v)::e::l else if k = e.1 then (k,v)::l else e::insertEntry k v l

theorem mem_insertEntry {k : K} {v : V} {l : List (K × V)} {e : K × V}
    (h : e ∈ insertEntry k v l) : e = (k,v) ∨ e ∈ l := by
  induction l with
  | nil => simpa [insertEntry] using h
  | cons a l ih =>
    rw [insertEntry] at h
    split at h
    · simpa using h
    · split at h
      · rcases mem_cons.mp h with h | h
        · exact .inl h
        · exact .inr (mem_cons_of_mem a h)
      · rcases mem_cons.mp h with rfl | h
        · exact .inr mem_cons_self
        · exact (ih h).imp_right (mem_cons_of_mem a)

theorem insertEntry_ascending {k : K} {v : V} {l : List (K × V)}
    (h : l.Pairwise fun a b => a.1 < b.1) : (insertEntry k v l).Pairwise fun a b => a.1 < b.1 := by
  induction l with
  | nil => simp [insertEntry]
  | cons a l ih =>
    obtain ⟨hhead,htail⟩ := pairwise_cons.mp h
    rw [insertEntry]
    split
    · rename_i hlt
      refine pairwise_cons.mpr ⟨fun b hb => ?_,h⟩
      rcases mem_cons.mp hb with rfl | hb
      · exact hlt
      · exact lt_trans hlt (hhead b hb)
    · rename_i hnlt
      split
      · rename_i heq
        exact pairwise_cons.mpr ⟨fun b hb => heq ▸ hhead b hb,htail⟩
      · rename_i hne
        refine pairwise_cons.mpr ⟨fun b hb => ?_,ih htail⟩
        rcases mem_insertEntry hb with rfl | hb
        · exact lt_of_le_of_ne (not_lt.mp hnlt) (Ne.symm hne)
        · exact hhead b hb

variable (m : OrdMap K V)

def insert (k : K) (v : V) : OrdMap K V :=
  ⟨insertEntry k v m.entries,insertEntry_ascending m.ascending⟩

def insertAll (m : OrdMap K V) : List (K × V) → OrdMap K V
  | [] => m
  | (k,v)::l => (m.insert k v).insertAll l

def ofList (l : List (K × V)) : OrdMap K V := empty.insertAll l

/-- The entries of `m'` are moved into `m`, over those of the same key. -/
def append (m m' : OrdMap K V) : OrdMap K V := m.insertAll m'.entries

def values : List V := m.entries.map Prod.snd

def getEntry (k : K) : List (K × V) → Option V
  | [] => none
  | e::l => if e.1 = k then some e.2 else getEntry k l

def get (k : K) : Option V := getEntry k m.entries

theorem getEntry_insertEntry (k k' : K) (v : V) (l : List (K × V)) :
    getEntry k' (insertEntry k v l) = if k = k' then some v else getEntry k' l := by
  induction l with
  | nil => rfl
  | cons e l ih =>
    rw [insertEntry]
    by_cases hlt : k < e.1
    · rw [if_pos hlt]
      rfl
    · rw [if_neg hlt]
      by_cases heq : k = e.1
      · rw [if_pos heq,getEntry,getEntry]
        by_cases hk : k = k'
        · simp [hk]
        · simp [hk,heq ▸ hk]
      · rw [if_neg heq,getEntry,getEntry,ih]
        by_cases hk : e.1 = k'
        · simp [hk,hk ▸ heq]
        · simp [hk]

theorem get_insert (k k' : K) (v : V) :
    (m.insert k v).get k' = if k = k' then some v else m.get k' := getEntry_insertEntry k k' v _

/-- The last of the values inserted for a key. -/
def last (k : K) : List (K × V) → Option V
  | [] => none
  | e::l => (last k l).or (if e.1 = k then some e.2 else none)

theorem get_insertAll (l : List (K × V)) (k : K) :
    (m.insertAll l).get k = (last k l).or (m.get k) := by
  induction l generalizing m with
  | nil => rfl
  | cons e l ih =>
    rw [insertAll,ih,get_insert,last]
    by_cases hk : e.1 = k <;> cases last k l <;> simp [hk]

theorem get_ofList (l : List (K × V)) (k : K) : (ofList l : OrdMap K V).get k = last k l := by
  rw [ofList,get_insertAll]
  exact or_none

theorem getEntry_eq_none {k : K} {l : List (K × V)} (h : ∀ e ∈ l, e.1 ≠ k) : getEntry k l = none := by
  induction l with
  | nil => rfl
  | cons e l ih =>
    rw [getEntry,if_neg (h e mem_cons_self)]
    exact ih fun f hf => h f (mem_cons_of_mem e hf)

/-- Among ascending entries a key stands once. -/
theorem last_eq_getEntry {k : K} {l : List (K × V)} (h : l.Pairwise fun a b => a.1 < b.1) :
    last k l = getEntry k l := by
  induction l with
  | nil => rfl
  | cons e l ih =>
    obtain ⟨hhead,htail⟩ := pairwise_cons.mp h
    rw [last,getEntry,ih htail]
    by_cases hk : e.1 = k
    · have hnone : getEntry k l = none :=
        getEntry_eq_none fun f hf heq => absurd (hhead f hf) (by rw [hk,heq]; exact lt_irrefl k)
      simp [hk,hnone]
    · simp [hk]

theorem mem_of_getEntry {k : K} {v : V} {l : List (K × V)} (h : getEntry k l = some v) :
    (k,v) ∈ l := by
  induction l with
  | nil => cases h
  | cons e l ih =>
    rw [getEntry] at h
    split at h
    · rename_i heq
      cases h
      exact heq ▸ mem_cons_self
    · exact mem_cons_of_mem e (ih h)

theorem get_append (m m' : OrdMap K V) (k : K) : (m.append m').get k = (m'.get k).or (m.get k) := by
  rw [append,get_insertAll,last_eq_getEntry m'.ascending]
  rfl

/-- The values under a key are the one that `get` returns. -/
theorem filter_entries (k : K) :
    (m.entries.filter fun e => e.1 = k).map Prod.snd = (m.get k).toList := by
  obtain ⟨l,h⟩ := m
  rw [get]
  dsimp only
  induction l with
  | nil => rfl
  | cons e l ih =>
    obtain ⟨hhead,htail⟩ := pairwise_cons.mp h
    rw [getEntry]
    by_cases hk : e.1 = k
    · have hnone : (l.filter fun f => f.1 = k) = [] := by
        refine filter_eq_nil_iff.mpr fun f hf heq => ?_
        have heq : f.1 = k := by simpa using heq
        exact absurd (hhead f hf) (by rw [hk,heq]; exact lt_irrefl k)
      simp [hk,hnone]
    · simp only [hk,decide_false,Bool.false_eq_true,not_false_eq_true,filter_cons_of_neg,if_false]
      exact ih htail

theorem mem_entries {m : OrdMap K V} {k : K} {v : V} : (k,v) ∈ m.entries ↔ m.get k = some v := by
  constructor
  · intro h
    have hf : v ∈ (m.entries.filter fun e => e.1 = k).map Prod.snd :=
      mem_map.mpr ⟨(k,v),by simp [h],rfl⟩
    rw [filter_entries] at hf
    exact mem_toList.mp hf
  · exact mem_of_getEntry

theorem get_empty (k : K) : (empty : OrdMap K V).get k = none := rfl

/-- Change or drop each value. -/
def filterMap (m : OrdMap K V) (f : K → V → Option V) : OrdMap K V where
  entries := m.entries.filterMap fun e => (f e.1 e.2).map (Prod.mk e.1)
  ascending := by
    apply List.Pairwise.filterMap _ _ m.ascending
    intro a b hab a' ha' b' hb'
    obtain ⟨_,_,rfl⟩ := map_eq_some_iff.mp ha'
    obtain ⟨_,_,rfl⟩ := map_eq_some_iff.mp hb'
    exact hab

theorem get_filterMap (f : K → V → Option V) (k : K) :
    (m.filterMap f).get k = (m.get k).bind (f k) := by
  apply Option.ext
  intro v
  rw [← mem_entries,filterMap,mem_filterMap,bind_eq_some_iff]
  constructor
  · rintro ⟨e,he,hv⟩
    obtain ⟨w,hw,hk⟩ := map_eq_some_iff.mp hv
    cases hk
    exact ⟨e.2,mem_entries.mp he,hw⟩
  · rintro ⟨w,hw,hv⟩
    exact ⟨(k,w),mem_entries.mpr hw,by simp [hv]⟩

def erase (k : K) : OrdMap K V := m.filterMap fun k' v => if k' = k then none else some v

theorem get_erase (k k' : K) :
    (m.erase k).get k' = if k' = k then none else m.get k' := by
  rw [erase,get_filterMap]
  split <;> simp

theorem get_insert_eq (k : K) (v : V) : (m.insert k v).get = Function.update m.get k (some v) := by
  funext k'
  rw [get_insert,Function.update_apply]
  exact if_congr eq_comm rfl rfl

theorem get_erase_eq (k : K) : (m.erase k).get = Function.update m.get k none := by
  funext k'
  rw [get_erase,Function.update_apply]

theorem entries_eq_nil {m : OrdMap K V} : m.entries = [] ↔ ∀ k, m.get k = none := by
  constructor
  · intro h k
    rw [get,h]
    rfl
  · intro h
    apply eq_nil_iff_forall_not_mem.mpr
    rintro ⟨k,v⟩ hm
    rw [mem_entries,h] at hm
    cases hm

section
variable {M : Type} [AddCommMonoid M] (f : K → V → M)

end

end OrdMap

theorem head?_eq_min? {α : Type} [LinearOrder α] {l : List α} (h : l.Pairwise (· < ·)) : l.head? = l.min? := by
  cases l with
  | nil => rfl
  | cons a l =>
    symm
    rw [List.head?_cons,List.min?_eq_some_iff]
    refine ⟨mem_cons_self,fun b hb => ?_⟩
    rcases mem_cons.mp hb with rfl | hb
    · exact le_rfl
    · exact ((pairwise_cons.mp h).1 b hb).le

theorem min?_congr {α : Type} [LinearOrder α] {l l' : List α} (h : ∀ a, a ∈ l ↔ a ∈ l') : l.min? = l'.min? := by
  apply Option.ext
  intro a
  simp only [List.min?_eq_some_iff,h]

end Tailnet
