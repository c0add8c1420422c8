import Tailnet.Bitset
import Tailnet.Lib.Run

/-! The sparse array of 256 elements: a bitset of the occupied indices and the
elements packed in index order. The element at an occupied index is found at the
rank of that index; every slice access that could go out of bounds is checked. -/
namespace Tailnet
open List Result Bitset

structure Array256 (α : Type) where
  bitset : Bitset256
  storage : List α

namespace Array256

variable {α : Type}

def empty : Array256 α := ⟨.empty,[]⟩

def test (a : Array256 α) (index : UInt8) : Bool := a.bitset.test index.toNat

def len (a : Array256 α) : ℕ := a.storage.length

def isEmpty (a : Array256 α) : Bool := a.bitset.isEmpty

/-- The position of an index in the packed storage. The bitset must already hold
the index, otherwise the subtraction may underflow. -/
def storageIndex (a : Array256 α) (index : UInt8) : Result ℕ :=
  match a.bitset.rank256 index.toNat with
  | 0 => .error .overflow
  | r+1 => .ok r

def get (a : Array256 α) (index : UInt8) : Result (Option α) :=
  if a.test index then do
    let k ← a.storageIndex index
    let v ← Result.index a.storage k
    return some v
  else
    return none

/-- Insert an item, returning the previous occupant. A mutable reference obtained
from `get_mut` and written through has the effect of its first branch. -/
def insert (a : Array256 α) (index : UInt8) (element : α) : Result (Option α × Array256 α) :=
  if a.test index then do
    let k ← a.storageIndex index
    let old ← Result.index a.storage k
    return (some old,{ a with storage := a.storage.set k element })
  else do
    -- the bit is set first so that the storage index is that of the new item
    let bitset := a.bitset.set index.toNat
    let k ← storageIndex (α := α) ⟨bitset,a.storage⟩ index
    if k ≤ a.storage.length then
      return (none,⟨bitset,a.storage.insertIdx k element⟩)
    else
      throw .indexOutOfBounds

def remove (a : Array256 α) (index : UInt8) : Result (Option α × Array256 α) :=
  if a.storage.length == 0 || !a.test index then
    return (none,a)
  else do
    let k ← a.storageIndex index
    let v ← Result.index a.storage k
    return (some v,⟨a.bitset.clear index.toNat,a.storage.eraseIdx k⟩)

/-- Write through the reference that `get_mut` returns. -/
def getMut (a : Array256 α) (index : UInt8) (f : α → α) : Result (Option α × Array256 α) :=
  if a.test index then do
    let k ← a.storageIndex index
    let v ← Result.index a.storage k
    return (some v,{ a with storage := a.storage.set k (f v) })
  else
    return (none,a)

def intersectionTop (a : Array256 α) (other : Bitset256) : Option UInt8 :=
  (a.bitset.intersectionTop other).map UInt8.ofNat

def iter (a : Array256 α) : List (UInt8 × α) := (a.bitset.bits.map UInt8.ofNat).zip a.storage

/-- The packed storage has exactly as many elements as set bits. -/
def WF (a : Array256 α) : Prop := a.storage.length = a.bitset.countOnes

/-- The partial function the array stands for. -/
def lookup (a : Array256 α) (index : UInt8) : Option α :=
  if a.bitset.test index.toNat then a.storage[a.bitset.rank index.toNat - 1]? else none

theorem toNat_lt (i : UInt8) : i.toNat < 4*64 := i.toNat_lt

theorem empty_wf : (empty : Array256 α).WF := by
  simp [WF,empty,countOnes_eq_card]

@[simp] theorem lookup_empty (i : UInt8) : (empty : Array256 α).lookup i = none := by
  simp [lookup,empty]

theorem lookup_of_not_test {a : Array256 α} {i : UInt8} (ht : a.test i = false) :
    a.lookup i = none := by
  rw [test] at ht
  simp [lookup,ht]

section
variable {a : Array256 α} (h : a.WF)
include h

theorem rank_le (i : UInt8) : a.bitset.rank i.toNat ≤ a.storage.length := by
  rw [h]
  exact a.bitset.rank_le_countOnes _

theorem lookup_of_test {i : UInt8} (ht : a.test i = true) :
    ∃ v, a.storage[a.bitset.rank i.toNat - 1]? = some v ∧ a.lookup i = some v := by
  have hpos := a.bitset.rank_pos ht
  have hle := rank_le h i
  have hlt : a.bitset.rank i.toNat - 1 < a.storage.length := by omega
  refine ⟨a.storage[a.bitset.rank i.toNat - 1],List.getElem?_eq_getElem hlt,?_⟩
  rw [lookup,if_pos (show a.bitset.test i.toNat = true from ht),List.getElem?_eq_getElem hlt]

theorem isSome_lookup (i : UInt8) : (a.lookup i).isSome = a.test i := by
  cases ht : a.test i with
  | false => exact congrArg Option.isSome (lookup_of_not_test ht)
  | true =>
    obtain ⟨v,_,hv⟩ := lookup_of_test h ht
    simp [hv]

omit h in
theorem storageIndex_eq {i : UInt8} (ht : a.test i = true) :
    a.storageIndex i = .ok (a.bitset.rank i.toNat - 1) := by
  have hpos := a.bitset.rank_pos ht
  rw [storageIndex,Bitset.rank256]
  split <;> rename_i hr
  · omega
  · simp [hr]

/-- Reading never goes out of bounds. -/
theorem get_eq (i : UInt8) : a.get i = .ok (a.lookup i) := by
  rw [get]
  split
  · rename_i ht
    obtain ⟨v,hv,hl⟩ := lookup_of_test h ht
    rw [storageIndex_eq ht,bind_of_ok,index_of_getElem? hv,hl]
    rfl
  · rename_i ht
    rw [lookup_of_not_test (by simpa using ht)]
    rfl

theorem insert_spec (i : UInt8) (v : α) :
    ∃ a', a.insert i v = .ok (a.lookup i,a') ∧ a'.WF ∧
      ∀ j, a'.lookup j = if j = i then some v else a.lookup j := by
  rw [insert]
  split
  · rename_i ht
    obtain ⟨old,hold,hl⟩ := lookup_of_test h ht
    have hpos := a.bitset.rank_pos ht
    have hle := rank_le h i
    refine ⟨{ a with storage := a.storage.set (a.bitset.rank i.toNat - 1) v },?_,?_,?_⟩
    · rw [storageIndex_eq ht,bind_of_ok,index_of_getElem? hold,hl]
      rfl
    · simpa [WF] using h
    · intro j
      simp only [lookup]
      by_cases hj : j = i
      · subst hj
        rw [if_pos rfl,if_pos (show a.bitset.test j.toNat = true from ht),List.getElem?_set_self (by omega)]
      · rw [if_neg hj]
        split
        · rename_i htj
          -- two occupied indices have different ranks
          have hne : a.bitset.rank i.toNat - 1 ≠ a.bitset.rank j.toNat - 1 := by
            have hposj := a.bitset.rank_pos htj
            rcases Nat.lt_or_gt_of_ne (fun he => hj (UInt8.toNat_inj.mp he)) with hlt | hlt
            · have := a.bitset.rank_lt hlt ht
              omega
            · have := a.bitset.rank_lt hlt htj
              omega
          rw [List.getElem?_set_ne hne]
        · rfl
  · rename_i ht
    have ht' : a.bitset.test i.toNat = false := by simpa [test] using ht
    have hrank := a.bitset.rank_set (toNat_lt i) ht'
    have hri : (a.bitset.set i.toNat).rank i.toNat = a.bitset.rank i.toNat + 1 := by
      rw [hrank,if_pos le_rfl]
    have hle := rank_le h i
    have hsi : storageIndex (α := α) ⟨a.bitset.set i.toNat,a.storage⟩ i =
        .ok (a.bitset.rank i.toNat) := by
      simp [storageIndex,Bitset.rank256,hri]
    refine ⟨⟨a.bitset.set i.toNat,a.storage.insertIdx (a.bitset.rank i.toNat) v⟩,?_,?_,?_⟩
    · simp only [hsi,bind_of_ok,if_pos hle]
      rw [lookup_of_not_test ht']
      rfl
    · rw [WF,length_insertIdx_of_le_length hle,h,countOnes_eq_card,
        countOnes_eq_card,toSet_set _ (toNat_lt i),Finset.card_insert_of_notMem]
      simp [mem_toSet,ht']
    · intro j
      simp only [lookup,test_set _ (toNat_lt i),UInt8.toNat_inj]
      by_cases hj : j = i
      · subst hj
        rw [if_pos rfl,if_pos (by simp),hri]
        rw [Nat.add_sub_cancel,List.getElem?_insertIdx_self]
        simp [hle]
      · simp only [hj,decide_false,Bool.false_or,if_false]
        split
        · rename_i htj
          have hposj := a.bitset.rank_pos htj
          rw [hrank]
          split
          · rename_i hij
            have hlt : i.toNat < j.toNat := lt_of_le_of_ne hij (fun he => hj (UInt8.toNat_inj.mp he.symm))
            have := a.bitset.rank_lt hlt htj
            rw [List.getElem?_insertIdx_of_gt (by omega)]
            congr 1
          · rename_i hij
            have := a.bitset.rank_mono (show j.toNat ≤ i.toNat by omega)
            rw [Nat.add_zero,List.getElem?_insertIdx_of_lt (by omega)]
        · rfl

theorem remove_spec (i : UInt8) :
    ∃ a', a.remove i = .ok (a.lookup i,a') ∧ a'.WF ∧
      ∀ j, a'.lookup j = if j = i then none else a.lookup j := by
  rw [remove]
  split
  · rename_i hc
    have ht : a.test i = false := by
      rcases Bool.or_eq_true _ _ ▸ hc with h0 | h0
      · have hl : a.storage.length = 0 := by simpa using h0
        have := rank_le h i
        by_contra ht
        have := a.bitset.rank_pos (show a.bitset.test i.toNat = true by simpa [test] using ht)
        omega
      · simpa using h0
    have hn := lookup_of_not_test ht
    refine ⟨a,by simp [hn],h,?_⟩
    intro j
    by_cases hj : j = i
    · subst hj
      simp [hn]
    · simp [hj]
  · rename_i hc
    simp only [Bool.or_eq_true,beq_iff_eq,Bool.not_eq_true',not_or,Bool.not_eq_false] at hc
    have ht := hc.2
    obtain ⟨old,hold,hl⟩ := lookup_of_test h ht
    have hpos := a.bitset.rank_pos ht
    have hle := rank_le h i
    have hrank := a.bitset.rank_clear (toNat_lt i) ht
    refine ⟨⟨a.bitset.clear i.toNat,a.storage.eraseIdx (a.bitset.rank i.toNat - 1)⟩,?_,?_,?_⟩
    · rw [storageIndex_eq ht,bind_of_ok,index_of_getElem? hold,hl]
      rfl
    · rw [WF,length_eraseIdx_of_lt (by omega),h,countOnes_eq_card,
        countOnes_eq_card,toSet_clear _ (toNat_lt i),Finset.card_erase_of_mem]
      exact mem_toSet.mpr ht
    · intro j
      simp only [lookup,test_clear _ (toNat_lt i),ne_eq,UInt8.toNat_inj]
      by_cases hj : j = i
      · simp [hj]
      · simp only [hj,not_false_eq_true,decide_true,Bool.true_and,if_false]
        split
        · rename_i htj
          have hposj := a.bitset.rank_pos htj
          have hr := hrank j.toNat
          split at hr
          · rename_i hij
            have hlt : i.toNat < j.toNat := lt_of_le_of_ne hij (fun he => hj (UInt8.toNat_inj.mp he.symm))
            have := a.bitset.rank_lt hlt htj
            rw [List.getElem?_eraseIdx_of_ge (by omega)]
            congr 1
            omega
          · rename_i hij
            have hlt : j.toNat < i.toNat := by omega
            have := a.bitset.rank_lt hlt ht
            rw [List.getElem?_eraseIdx_of_lt (by omega)]
            congr 1
            omega
        · rfl

/-- A write through the reference is an insertion of the new value. -/
theorem getMut_spec (i : UInt8) (f : α → α) :
    ∃ a', a.getMut i f = .ok (a.lookup i,a') ∧ a'.WF ∧
      ∀ j, a'.lookup j = if j = i then (a.lookup i).map f else a.lookup j := by
  by_cases ht : a.test i = true
  · obtain ⟨v,hv,hl⟩ := lookup_of_test h ht
    obtain ⟨a',hins,hwf,hlook⟩ := insert_spec h i (f v)
    refine ⟨a',?_,hwf,fun j => by rw [hlook,hl,Option.map_some]⟩
    rw [insert,if_pos ht,storageIndex_eq ht,bind_of_ok,index_of_getElem? hv,bind_of_ok,hl] at hins
    cases hins
    rw [getMut,if_pos ht,storageIndex_eq ht,bind_of_ok,index_of_getElem? hv,hl]
    rfl
  · have hnone := lookup_of_not_test (by simpa using ht)
    refine ⟨a,by rw [getMut,if_neg ht,hnone]; rfl,h,fun j => ?_⟩
    split
    · rename_i hj
      rw [hj,hnone,Option.map_none]
    · rfl

theorem len_eq_card : a.len = a.bitset.toSet.card := by
  rw [len,h,countOnes_eq_card]

theorem len_eq_zero : a.len = 0 ↔ ∀ i, a.lookup i = none := by
  rw [len_eq_card h,Finset.card_eq_zero,Finset.eq_empty_iff_forall_notMem]
  constructor
  · intro he i
    have ht : a.test i = false := by
      simpa [mem_toSet,test] using he i.toNat
    exact lookup_of_not_test ht
  · intro hn k hk
    have hk' := mem_toSet.mp hk
    have hlt : k < 256 := test_lt hk'
    have hs := isSome_lookup h (UInt8.ofNat k)
    have hkk : (UInt8.ofNat k).toNat = k := by simpa using Nat.mod_eq_of_lt hlt
    rw [hn,test,hkk,hk'] at hs
    simp at hs

theorem len_eq_one (h1 : a.len = 1) : ∃ i v, a.bitset.firstSet = some (UInt8.toNat i) ∧
    a.lookup i = some v ∧ ∀ j, j ≠ i → a.lookup j = none := by
  rw [len_eq_card h,Finset.card_eq_one] at h1
  obtain ⟨k,hk⟩ := h1
  have hmem : k ∈ a.bitset.toSet := by simp [hk]
  have hlt : k < 256 := test_lt (mem_toSet.mp hmem)
  have hkk : (UInt8.ofNat k).toNat = k := by simpa using Nat.mod_eq_of_lt hlt
  have ht : a.test (UInt8.ofNat k) = true := by
    rw [test,hkk]
    exact mem_toSet.mp hmem
  obtain ⟨v,_,hv⟩ := lookup_of_test h ht
  refine ⟨UInt8.ofNat k,v,?_,hv,?_⟩
  · have hf := a.bitset.isFirst_firstSet
    rw [hk] at hf
    cases hs : a.bitset.firstSet with
    | none => rw [hs] at hf; simp [IsFirst] at hf
    | some m =>
      rw [hs] at hf
      have hm := hf.mem
      rw [Finset.mem_singleton] at hm
      rw [hm,hkk]
  · intro j hj
    have htj : a.test j = false := by
      by_contra hc
      have hm := mem_toSet.mpr (show a.bitset.test j.toNat = true by simpa [test] using hc)
      rw [hk,Finset.mem_singleton] at hm
      exact hj (UInt8.toNat_inj.mp (hm.trans hkk.symm))
    exact lookup_of_not_test htj

theorem exists_ne (h2 : 2 ≤ a.len) (i : UInt8) : ∃ j v, j ≠ i ∧ a.lookup j = some v := by
  rw [len_eq_card h] at h2
  obtain ⟨k,hk,hne⟩ := Finset.exists_mem_ne h2 i.toNat
  have hk' := mem_toSet.mp hk
  have hkk : (UInt8.ofNat k).toNat = k := by simpa using Nat.mod_eq_of_lt (test_lt hk')
  obtain ⟨v,_,hv⟩ := lookup_of_test h (show a.test (UInt8.ofNat k) = true by rw [test,hkk,hk'])
  refine ⟨UInt8.ofNat k,v,?_,hv⟩
  rintro rfl
  exact hne hkk.symm

theorem exists_of_len_ne_zero (h0 : a.len ≠ 0) : ∃ i v, a.lookup i = some v := by
  rw [ne_eq,len_eq_zero h,not_forall] at h0
  obtain ⟨i,hi⟩ := h0
  exact ⟨i,Option.ne_none_iff_exists'.mp hi⟩

theorem length_bits : a.bitset.bits.length = a.storage.length := by
  rw [h,countOnes_eq_card,a.bitset.enumerates_bits.length]

/-- The entry at a position of the storage is that of the set bit at this position. -/
theorem lookup_bits {k : ℕ} (hk : k < a.storage.length) :
    ∃ hb : k < a.bitset.bits.length, a.bitset.bits[k] < 256 ∧
      a.lookup (UInt8.ofNat a.bitset.bits[k]) = some a.storage[k] := by
  have hb : k < a.bitset.bits.length := by rwa [length_bits h]
  have henum := a.bitset.enumerates_bits
  have ht : a.bitset.test a.bitset.bits[k] = true :=
    mem_toSet.mp ((henum.2 _).mp (getElem_mem hb))
  have hlt : a.bitset.bits[k] < 256 := test_lt ht
  refine ⟨hb,hlt,?_⟩
  rw [lookup,UInt8.toNat_ofNat_of_lt' hlt,if_pos ht,rank_eq_card,henum.card_filter_le hb,
    Nat.add_sub_cancel,List.getElem?_eq_getElem hk]

theorem mem_iter {i : UInt8} {v : α} : (i,v) ∈ a.iter ↔ a.lookup i = some v := by
  rw [iter,mem_iff_getElem]
  constructor
  · rintro ⟨k,hk,he⟩
    rw [length_zip,length_map,length_bits h,min_self] at hk
    obtain ⟨hb,-,hv⟩ := lookup_bits h hk
    rw [getElem_zip,getElem_map] at he
    cases he
    exact hv
  · intro hv
    have ht : a.bitset.test i.toNat = true := by
      have hs := isSome_lookup h i
      rw [hv] at hs
      exact hs.symm
    obtain ⟨k,hb,he⟩ := mem_iff_getElem.mp ((a.bitset.enumerates_bits.2 _).mpr (mem_toSet.mpr ht))
    have hk : k < a.storage.length := by rwa [← length_bits h]
    obtain ⟨_,-,hl⟩ := lookup_bits h hk
    rw [he,UInt8.ofNat_toNat,hv] at hl
    refine ⟨k,by rw [length_zip,length_map,length_bits h,min_self]; exact hk,?_⟩
    rw [getElem_zip,getElem_map,he,UInt8.ofNat_toNat,← Option.some.inj hl]

theorem iter_sorted : a.iter.Pairwise (fun x y => x.1 < y.1) := by
  have hbits : (a.bitset.bits.map UInt8.ofNat).Pairwise (· < ·) := by
    rw [pairwise_map]
    refine a.bitset.enumerates_bits.1.imp_of_mem fun {i j} hi hj hlt => ?_
    have hlt256 : ∀ k ∈ a.bitset.bits, k < 256 := fun k hk =>
      test_lt (mem_toSet.mp ((a.bitset.enumerates_bits.2 k).mp hk))
    rw [UInt8.lt_iff_toNat_lt,UInt8.toNat_ofNat_of_lt' (hlt256 i hi),UInt8.toNat_ofNat_of_lt' (hlt256 j hj)]
    exact hlt
  rw [← pairwise_map (f := Prod.fst),iter,map_fst_zip]
  · exact hbits
  · rw [length_map,length_bits h]

theorem length_iter : a.iter.length = a.len := by
  rw [iter,length_zip,length_map,length_bits h,min_self]
  rfl

end

inductive Op (α : Type)
  | get (index : UInt8)
  | insert (index : UInt8) (element : α)
  | remove (index : UInt8)
  | getMut (index : UInt8) (f : α → α)

def step : Op α → Array256 α → Result (Option α × Array256 α)
  | .get index,a => do return (← a.get index,a)
  | .insert index element,a => a.insert index element
  | .remove index,a => a.remove index
  | .getMut index f,a => a.getMut index f

/-- The same operation on a finite map. -/
def mapStep : Op α → (UInt8 → Option α) → Option α × (UInt8 → Option α)
  | .get index,m => (m index,m)
  | .insert index element,m => (m index,Function.update m index (some element))
  | .remove index,m => (m index,Function.update m index none)
  | .getMut index f,m => (m index,Function.update m index ((m index).map f))

/-- The array is well formed and holds the map `m`. -/
def Rep (a : Array256 α) (m : UInt8 → Option α) : Prop := a.WF ∧ a.lookup = m

theorem step_refines (op : Op α) {a : Array256 α} {m : UInt8 → Option α} (h : Rep a m) :
    ∃ a', a.step op = .ok ((mapStep op m).1,a') ∧ Rep a' (mapStep op m).2 := by
  obtain ⟨h,rfl⟩ := h
  have hupdate : ∀ {r : Result (Option α × Array256 α)} {i : UInt8} {x : Option α},
      (∃ a', r = .ok (a.lookup i,a') ∧ a'.WF ∧ ∀ j, a'.lookup j = if j = i then x else a.lookup j) →
      ∃ a', r = .ok (a.lookup i,a') ∧ Rep a' (Function.update a.lookup i x) := by
    rintro r i x ⟨a',hr,hwf,hlook⟩
    refine ⟨a',hr,hwf,funext fun j => ?_⟩
    rw [hlook,Function.update_apply]
  cases op with
  | get index => exact ⟨a,by simp [step,get_eq h,mapStep],h,rfl⟩
  | insert index element => exact hupdate (insert_spec h index element)
  | remove index => exact hupdate (remove_spec h index)
  | getMut index f => exact hupdate (getMut_spec h index f)

/-- Every run of an array is the run of a finite map; it never leaves the storage, which has as
many elements as bits are set. -/
theorem array_refines_map (ops : List (Op α)) :
    ∃ a, runAll step ops empty = .ok ((specAll mapStep ops fun _ => none).1,a) ∧
      a.storage.length = a.bitset.countOnes ∧
      (∀ i v, (i,v) ∈ a.iter ↔ (specAll mapStep ops fun _ => none).2 i = some v) ∧
      a.iter.Pairwise fun x y => x.1 < y.1 := by
  obtain ⟨a,hrun,hwf,hlook⟩ := runAll_refines Rep (fun op _ _ h => step_refines op h) ops
    (⟨empty_wf,funext lookup_empty⟩ : Rep empty fun _ => none)
  exact ⟨a,hrun,hwf,fun i v => by rw [mem_iter hwf,hlook],iter_sorted hwf⟩

end Array256
end Tailnet
