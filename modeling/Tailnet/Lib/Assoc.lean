import Mathlib

/-! Finite maps and sets with an unspecified order of iteration. The entries of a map stand in a
list, and an iteration goes over them by an arbitrary rank of the keys, so that every order is the
one of some rank. -/
namespace Tailnet
open Function List

structure Assoc (K V : Type) where
  entries : List (K × V)
  nodup : (entries.map Prod.fst).Nodup

namespace Assoc
variable {K V : Type}

def empty : Assoc K V := ⟨[],nodup_nil⟩

/-- The entries in the order of an iteration. -/
def iter (m : Assoc K V) (rank : K → ℕ) : List (K × V) :=
  m.entries.insertionSort fun a b => rank a.1 ≤ rank b.1

variable [DecidableEq K]

def get (m : Assoc K V) (k : K) : Option V :=
  (m.entries.find? fun e => e.1 = k).map Prod.snd

theorem nodup_filter (m : Assoc K V) (k : K) :
    ((m.entries.filter fun e => e.1 ≠ k).map Prod.fst).Nodup :=
  m.nodup.sublist (filter_sublist.map Prod.fst)

def erase (m : Assoc K V) (k : K) : Assoc K V := ⟨m.entries.filter fun e => e.1 ≠ k,m.nodup_filter k⟩

def insert (m : Assoc K V) (k : K) (v : V) : Assoc K V where
  entries := (k,v)::m.entries.filter fun e => e.1 ≠ k
  nodup := by
    rw [map_cons,nodup_cons]
    refine ⟨?_,m.nodup_filter k⟩
    simp

variable {m : Assoc K V} {k k' : K} {v : V}

theorem mem_entries : (k,v) ∈ m.entries ↔ m.get k = some v := by
  rw [get,Option.map_eq_some_iff]
  constructor
  · intro h
    cases hf : m.entries.find? fun e => e.1 = k with
    | none =>
      have hno := List.find?_eq_none.mp hf (k,v) h
      simp at hno
    | some e =>
      have he : e.1 = k := by simpa using List.find?_some hf
      have hmem := mem_of_find?_eq_some hf
      -- a key has one entry
      have heq : e = (k,v) := inj_on_of_nodup_map m.nodup hmem h he
      exact ⟨e,rfl,by rw [heq]⟩
  · rintro ⟨⟨k',v'⟩,hf,rfl⟩
    have he : k' = k := by simpa using List.find?_some hf
    subst he
    exact mem_of_find?_eq_some hf

theorem mem_iter {rank : K → ℕ} {e : K × V} : e ∈ m.iter rank ↔ m.get e.1 = some e.2 := by
  rw [iter,mem_insertionSort]
  exact mem_entries

@[simp] theorem get_empty (k : K) : (empty : Assoc K V).get k = none := rfl

theorem get_erase (m : Assoc K V) (k k' : K) : (m.erase k).get k' = if k' = k then none else m.get k' := by
  ext v
  rw [← mem_entries,erase,mem_filter,mem_entries]
  by_cases h : k' = k
  · simp [h]
  · simp [h]

theorem get_insert (m : Assoc K V) (k k' : K) (v : V) :
    (m.insert k v).get k' = if k' = k then some v else m.get k' := by
  ext w
  rw [← mem_entries,insert,mem_cons,mem_filter,mem_entries]
  by_cases h : k' = k
  · simp [h,eq_comm]
  · simp [h]

theorem get_erase_eq (m : Assoc K V) (k : K) : (m.erase k).get = update m.get k none := by
  funext k'
  rw [get_erase,update_apply]

theorem get_insert_eq (m : Assoc K V) (k : K) (v : V) :
    (m.insert k v).get = update m.get k (some v) := by
  funext k'
  rw [get_insert,update_apply]

/-- More values for a key, whose list is created if there is none. -/
def extend {V : Type} (m : Assoc K (List V)) (k : K) (vs : List V) : Assoc K (List V) :=
  m.insert k ((m.get k).getD [] ++ vs)

theorem get_extend {V : Type} (m : Assoc K (List V)) (k k' : K) (vs : List V) :
    (m.extend k vs).get k' = if k' = k then some ((m.get k).getD [] ++ vs) else m.get k' :=
  get_insert m k k' _

/-- All keys of a map have a property. -/
def Within (m : Assoc K V) (P : K → Prop) : Prop := ∀ k v, m.get k = some v → P k

theorem within_empty (P : K → Prop) : (empty : Assoc K V).Within P := by
  intro k v h
  cases h

theorem Within.extend {V : Type} {m : Assoc K (List V)} {P : K → Prop} (h : m.Within P) {k : K}
    (hk : P k) (vs : List V) : (m.extend k vs).Within P := by
  intro k' v hv
  rw [get_extend] at hv
  split at hv
  · rename_i heq
    exact heq ▸ hk
  · exact h k' v hv

/-- Change the value of a key in its place. -/
def adjust (m : Assoc K V) (k : K) (f : V → V) : Assoc K V where
  entries := m.entries.map fun e => if e.1 = k then (e.1,f e.2) else e
  nodup := by
    have hkeys : (m.entries.map fun e => if e.1 = k then (e.1,f e.2) else e).map Prod.fst =
        m.entries.map Prod.fst := by
      rw [map_map]
      refine map_congr_left fun e _ => ?_
      by_cases h : e.1 = k
      · simp [h]
      · simp [h]
    rw [hkeys]
    exact m.nodup

theorem get_adjust (m : Assoc K V) (k k' : K) (f : V → V) :
    (m.adjust k f).get k' = if k' = k then (m.get k).map f else m.get k' := by
  ext w
  rw [← mem_entries,adjust,mem_map]
  by_cases h : k' = k
  · subst h
    rw [if_pos rfl,Option.map_eq_some_iff]
    constructor
    · rintro ⟨⟨k,v⟩,he,heq⟩
      by_cases hk : k = k'
      · subst hk
        rw [if_pos rfl] at heq
        exact ⟨v,mem_entries.mp he,(Prod.mk.inj heq).2⟩
      · rw [if_neg hk] at heq
        exact absurd (Prod.mk.inj heq).1 hk
    · rintro ⟨v,hv,rfl⟩
      exact ⟨(k',v),mem_entries.mpr hv,if_pos rfl⟩
  · rw [if_neg h,← mem_entries]
    constructor
    · rintro ⟨⟨k1,v⟩,he,heq⟩
      by_cases hk : k1 = k
      · rw [if_pos hk] at heq
        exact absurd ((Prod.mk.inj heq).1.symm.trans hk) h
      · rw [if_neg hk] at heq
        exact heq ▸ he
    · intro he
      exact ⟨(k',w),he,if_neg h⟩

theorem get_adjust_eq {m : Assoc K V} {k : K} {v : V} (h : m.get k = some v) (w : V) :
    (m.adjust k fun _ => w).get = update m.get k (some w) := by
  funext k'
  rw [get_adjust,h,Option.map_some,update_apply]

/-- Change the value of a key, or drop it. -/
def revise (g : V → Option V) (m : Assoc K V) (k : K) : Assoc K V :=
  match (m.get k).map g with
  | none => m
  | some none => m.erase k
  | some (some w) => m.adjust k fun _ => w

theorem get_revise (g : V → Option V) (m : Assoc K V) (k k' : K) :
    (m.revise g k).get k' = if k' = k then (m.get k).bind g else m.get k' := by
  cases hk : m.get k with
  | none =>
    by_cases h : k' = k
    · subst h
      simp [revise,hk]
    · simp [revise,hk,h]
  | some v =>
    cases hg : g v with
    | none => simp [revise,hk,hg,get_erase]
    | some w => simp [revise,hk,hg,get_adjust]

/-- Changes that change nothing a second time, for a list of keys. -/
theorem get_foldl_revise {g : V → Option V} (hidem : ∀ v w, g v = some w → g w = some w) (ks : List K)
    (m : Assoc K V) (k : K) :
    (ks.foldl (revise g) m).get k = if k ∈ ks then (m.get k).bind g else m.get k := by
  induction ks generalizing m with
  | nil => rfl
  | cons k' ks ih =>
    rw [foldl_cons,ih,get_revise]
    by_cases hk : k = k'
    · subst hk
      have htwice : ((m.get k).bind g).bind g = (m.get k).bind g := by
        cases hv : (m.get k).bind g with
        | none => rfl
        | some w =>
          obtain ⟨v,-,hg⟩ := Option.bind_eq_some_iff.mp hv
          exact hidem v w hg
      simp [htwice]
    · simp [hk]

/-- The entries without those of the given keys. -/
def eraseAll (m : Assoc K V) (ks : Finset K) : Assoc K V :=
  ⟨m.entries.filter fun e => e.1 ∉ ks,m.nodup.sublist (filter_sublist.map Prod.fst)⟩

theorem get_eraseAll (m : Assoc K V) (ks : Finset K) (k : K) :
    (m.eraseAll ks).get k = if k ∈ ks then none else m.get k := by
  ext v
  rw [← mem_entries,eraseAll,mem_filter,mem_entries]
  by_cases h : k ∈ ks
  · simp [h]
  · simp [h]

theorem length_filter_mem {m : Assoc K V} {ks : Finset K} (h : ∀ k ∈ ks, (m.get k).isSome = true) :
    (m.entries.filter fun e => e.1 ∈ ks).length = ks.card := by
  have hnodup : ((m.entries.filter fun e => e.1 ∈ ks).map Prod.fst).Nodup :=
    m.nodup.sublist (filter_sublist.map Prod.fst)
  have hkeys : ((m.entries.filter fun e => e.1 ∈ ks).map Prod.fst).toFinset = ks := by
    ext k
    simp only [mem_toFinset,mem_map,mem_filter,decide_eq_true_eq]
    constructor
    · rintro ⟨e,⟨-,he⟩,rfl⟩
      exact he
    · intro hk
      obtain ⟨v,hv⟩ := Option.isSome_iff_exists.mp (h k hk)
      exact ⟨(k,v),⟨mem_entries.mpr hv,hk⟩,rfl⟩
  have hcard := toFinset_card_of_nodup hnodup
  rw [hkeys,length_map] at hcard
  exact hcard.symm

end Assoc

/-- A total order of the keys, by which an iteration goes. -/
structure KeyOrder (K : Type) where
  le : K → K → Bool
  total : ∀ a b, le a b ∨ le b a
  trans : ∀ a b c, le a b → le b c → le a c
  antisymm : ∀ a b, le a b → le b a → a = b

theorem KeyOrder.exists (K : Type) : Nonempty (KeyOrder K) := by
  classical
  let ord : LinearOrder K := linearOrderOfSTO WellOrderingRel
  exact ⟨fun a b => decide (ord.le a b),fun a b => by simpa using ord.le_total a b,
    fun a b c => by simpa using ord.le_trans a b c,fun a b => by simpa using ord.le_antisymm a b⟩

/-- Lists in the order of their keys that have the same elements are equal. -/
theorem KeyOrder.eq_of_sorted {K α : Type} (ord : KeyOrder K) (key : α → K) {l l' : List α}
    (hsorted : l.Pairwise fun a b => ord.le (key a) (key b))
    (hsorted' : l'.Pairwise fun a b => ord.le (key a) (key b)) (hnodup : (l.map key).Nodup)
    (hnodup' : (l'.map key).Nodup) (hmem : ∀ a, a ∈ l ↔ a ∈ l') : l = l' := by
  have hperm : l.Perm l' := (perm_ext_iff_of_nodup hnodup.of_map hnodup'.of_map).mpr hmem
  refine hperm.eq_of_pairwise ?_ hsorted hsorted'
  intro a b ha hb hle hge
  exact inj_on_of_nodup_map hnodup ha ((hmem b).mpr hb) (ord.antisymm _ _ hle hge)

namespace Assoc
variable {K V : Type}

/-- The entries in the order of their keys. -/
def sorted (m : Assoc K V) (ord : KeyOrder K) : List (K × V) :=
  m.entries.insertionSort fun a b => ord.le a.1 b.1

theorem pairwise_sorted (m : Assoc K V) (ord : KeyOrder K) :
    (m.sorted ord).Pairwise fun a b => ord.le a.1 b.1 := by
  have : Std.Total fun a b : K × V => ord.le a.1 b.1 = true := ⟨fun a b => ord.total a.1 b.1⟩
  have : IsTrans (K × V) fun a b => ord.le a.1 b.1 = true := ⟨fun a b c => ord.trans a.1 b.1 c.1⟩
  exact pairwise_insertionSort _ m.entries

theorem nodup_sorted (m : Assoc K V) (ord : KeyOrder K) : ((m.sorted ord).map Prod.fst).Nodup :=
  (((perm_insertionSort _ m.entries).map Prod.fst).nodup_iff).mpr m.nodup

@[simp] theorem length_sorted (m : Assoc K V) (ord : KeyOrder K) :
    (m.sorted ord).length = m.entries.length :=
  (perm_insertionSort _ m.entries).length_eq

variable [DecidableEq K]

theorem mem_sorted {m : Assoc K V} {ord : KeyOrder K} {k : K} {v : V} :
    (k,v) ∈ m.sorted ord ↔ m.get k = some v := by
  rw [sorted,mem_insertionSort,mem_entries]

/-- A list in the order of its keys that has the entries of a map is the one of the map. -/
theorem eq_sorted {m : Assoc K V} {ord : KeyOrder K} {l : List (K × V)}
    (hsorted : l.Pairwise fun a b => ord.le a.1 b.1) (hnodup : (l.map Prod.fst).Nodup)
    (hmem : ∀ k v, (k,v) ∈ l ↔ m.get k = some v) : l = m.sorted ord :=
  ord.eq_of_sorted Prod.fst hsorted (m.pairwise_sorted ord) hnodup (m.nodup_sorted ord)
    fun ⟨k,v⟩ => by rw [hmem,mem_sorted]

end Assoc

/-- An order in which sets are iterated. -/
structure IterOrder (α : Type) where
  list : Finset α → List α
  mem_list : ∀ s a, a ∈ list s ↔ a ∈ s

/-- By rank. -/
def IterOrder.byRank {α : Type} (rank : α → ℕ) (hinj : Function.Injective rank) : IterOrder α where
  list s := Quot.liftOn s.val (fun l => l.insertionSort fun a b => rank a ≤ rank b) fun a b hab =>
    have hperm : (a.insertionSort fun a b => rank a ≤ rank b).Perm
        (b.insertionSort fun a b => rank a ≤ rank b) :=
      ((perm_insertionSort _ a).trans hab).trans (perm_insertionSort _ b).symm
    have : Std.Total fun a b : α => rank a ≤ rank b := ⟨fun a b => le_total (rank a) (rank b)⟩
    have : IsTrans α fun a b => rank a ≤ rank b := ⟨fun a b c => le_trans⟩
    hperm.eq_of_pairwise (fun x y _ _ hxy hyx => hinj (le_antisymm hxy hyx))
      (pairwise_insertionSort _ a) (pairwise_insertionSort _ b)
  mem_list s a := by
    obtain ⟨⟨l⟩,_⟩ := s
    exact mem_insertionSort _

end Tailnet
