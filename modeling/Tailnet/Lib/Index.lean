import Mathlib

/-! Reverse indices. An index is the inverse of a partial map from owners to keys if it
maps a key to an owner exactly when the owner has the key. Where owners have many keys,
or share some of them, the two directions are kept apart. -/
namespace Tailnet
open Function List

section
variable {K P : Type}

/-- The index maps a key to its owner, and nothing else. -/
def Inverse (index : K → Option P) (keys : P → Option K) : Prop :=
  ∀ k p, index k = some p ↔ keys p = some k

variable {index : K → Option P} {keys : P → Option K} {k k' : K} {p q : P}

theorem Inverse.unique (h : Inverse index keys) (hp : keys p = some k) (hq : keys q = some k) :
    p = q :=
  Option.some.inj (((h k p).mpr hp).symm.trans ((h k q).mpr hq))

theorem Inverse.index_eq_none (h : Inverse index keys) : index k = none ↔ ∀ p, keys p ≠ some k := by
  rw [Option.eq_none_iff_forall_ne_some]
  exact forall_congr' fun p => not_congr (h k p)

variable [DecidableEq K] [DecidableEq P]

theorem Inverse.insert (h : Inverse index keys) (hk : index k = none) (hp : keys p = none) :
    Inverse (update index k (some p)) (update keys p (some k)) := by
  intro a q
  by_cases ha : a = k
  · subst ha
    by_cases hq : q = p
    · simp [hq]
    · have hne := (h.index_eq_none.mp hk) q
      simp [hq,hne,Ne.symm hq]
  · by_cases hq : q = p
    · subst hq
      have hne := (h a q).not.mpr (by simp [hp])
      simp [ha,hne,Ne.symm ha]
    · simpa [ha,hq] using h a q

theorem Inverse.remove (h : Inverse index keys) (hp : keys p = some k) :
    Inverse (update index k none) (update keys p none) := by
  intro a q
  by_cases ha : a = k
  · subst ha
    by_cases hq : q = p
    · simp [hq]
    · have hne : keys q ≠ some a := fun hqa => hq (h.unique hqa hp)
      simp [hq,hne]
  · by_cases hq : q = p
    · subst hq
      have hne : index a ≠ some q := by
        rw [Ne,h a q,hp]
        exact fun heq => ha (Option.some.inj heq).symm
      simp [ha,hne]
    · simpa [ha,hq] using h a q

theorem Inverse.change (h : Inverse index keys) (hp : keys p = some k) (hne : k' ≠ k)
    (hk : index k' = none) :
    Inverse (update (update index k none) k' (some p))
      (update keys p (some k')) := by
  have hremoved := (h.remove hp).insert (k := k') (p := p) (by simp [hne,hk]) (by simp)
  rwa [update_idem] at hremoved

end
section
variable {K P : Type}

open Classical in
/-- An owner gives up the keys that lead to it among `dropped`, and takes keys. -/
noncomputable def reassign (index : K → Option P) (p : P) (dropped taken : Set K) (k : K) : Option P :=
  if k ∈ taken then some p else if k ∈ dropped ∧ index k = some p then none else index k

/-- The keys of an owner that may have one. -/
def optionKeys (o : Option K) : Set K := {k | o = some k}

@[simp] theorem mem_optionKeys {o : Option K} {k : K} : k ∈ optionKeys o ↔ o = some k := Iff.rfl

@[simp] theorem optionKeys_none : optionKeys (none : Option K) = ∅ := by
  simp [optionKeys]

@[simp] theorem optionKeys_some (k : K) : optionKeys (some k) = {k} := by
  ext a
  simp [eq_comm]

/-- Every key leads to the owner that has it. -/
def Resolves (index : K → Option P) (has : P → K → Prop) : Prop :=
  ∀ p k, has p k → index k = some p

/-- Keys lead only to owners that have them. -/
def NotStale (index : K → Option P) (has : P → K → Prop) : Prop :=
  ∀ p k, index k = some p → has p k

variable {index : K → Option P} {has has' : P → K → Prop} {p q : P} {k : K}
  {dropped taken : Set K}

theorem reassign_of_mem (h : k ∈ taken) : reassign index p dropped taken k = some p := if_pos h

theorem reassign_of_notMem (ht : k ∉ taken) (hd : k ∉ dropped) :
    reassign index p dropped taken k = index k := by
  rw [reassign,if_neg ht,if_neg fun h => hd h.1]

theorem reassign_of_ne (ht : k ∉ taken) (hk : index k = some q) (hq : q ≠ p) :
    reassign index p dropped taken k = some q := by
  have hne : ¬ (k ∈ dropped ∧ index k = some p) := fun h => hq (Option.some.inj (hk.symm.trans h.2))
  rw [reassign,if_neg ht,if_neg hne,hk]

theorem reassign_empty : reassign index p ∅ ∅ = index := by
  funext k
  exact reassign_of_notMem (Set.notMem_empty k) (Set.notMem_empty k)

theorem reassign_take (d t t' : Set K) :
    reassign (reassign index p d t) p ∅ t' = reassign index p d (t' ∪ t) := by
  classical
  funext k
  by_cases ht : k ∈ t'
  · simp [reassign,ht]
  · simp [reassign,ht]

theorem reassign_drop (d d' : Set K) :
    reassign (reassign index p d ∅) p d' ∅ = reassign index p (d ∪ d') ∅ := by
  classical
  funext k
  simp only [reassign,Set.mem_empty_iff_false,if_false,Set.mem_union]
  by_cases hk : index k = some p
  · by_cases hd : k ∈ d
    · simp [hk,hd]
    · simp [hk,hd]
  · simp [hk]

variable [DecidableEq K]

theorem update_none_eq_reassign (h : index k = some p) :
    update index k none = reassign index p {k} ∅ := by
  classical
  funext a
  by_cases ha : a = k
  · subst ha
    simp [reassign,h]
  · simp [reassign,ha]

theorem ite_update_eq_reassign [DecidableEq P] (index : K → Option P) (p : P) (k : K) :
    (if index k = some p then update index k none else index) = reassign index p {k} ∅ := by
  classical
  split
  · rename_i h
    exact update_none_eq_reassign h
  · rename_i h
    funext a
    by_cases ha : a = k
    · subst ha
      simp [reassign,h]
    · simp [reassign,ha]

theorem update_some_eq_reassign (index : K → Option P) (p : P) (k : K) :
    update index k (some p) = reassign index p ∅ {k} := by
  classical
  funext a
  by_cases ha : a = k
  · simp [reassign,ha]
  · simp [reassign,ha]

omit [DecidableEq K] in
/-- An owner changes its keys; the ones it takes belong to nobody else. -/
theorem Resolves.reassign (h : Resolves index has) (hothers : ∀ q, q ≠ p → ∀ k, has' q k → has q k)
    (hfree : ∀ q, q ≠ p → ∀ k ∈ taken, ¬ has' q k)
    (hown : ∀ k, has' p k → k ∈ taken ∨ k ∉ dropped ∧ has p k) :
    Resolves (reassign index p dropped taken) has' := by
  intro q k hqk
  by_cases hq : q = p
  · subst hq
    by_cases ht : k ∈ taken
    · exact reassign_of_mem ht
    · obtain ⟨hd,hk⟩ := (hown k hqk).resolve_left ht
      rw [reassign_of_notMem ht hd]
      exact h q k hk
  · exact reassign_of_ne (fun ht => hfree q hq k ht hqk) (h q k (hothers q hq k hqk)) hq

omit [DecidableEq K] in
/-- An owner changes its keys; the ones it does not drop it keeps. -/
theorem NotStale.reassign (h : NotStale index has) (hothers : ∀ q, q ≠ p → ∀ k, has q k → has' q k)
    (htaken : ∀ k ∈ taken, has' p k) (hkept : ∀ k, has p k → k ∉ dropped → has' p k) :
    NotStale (reassign index p dropped taken) has' := by
  intro q k hqk
  rw [Tailnet.reassign] at hqk
  split at hqk
  · rename_i ht
    cases hqk
    exact htaken k ht
  · split at hqk
    · cases hqk
    · rename_i hd
      by_cases hq : q = p
      · subst hq
        exact hkept k (h q k hqk) fun hk => hd ⟨hk,hqk⟩
      · exact hothers q hq k (h q k hqk)

end
section
variable {X K V : Type}

/-- An index maps a value to the key of the row that has it. -/
def IndexOf (index : X → Option K) (rows : K → Option V) (values : V → List X) : Prop :=
  ∀ x k, index x = some k ↔ ∃ v, rows k = some v ∧ x ∈ values v

/-- No two rows have a value in common. -/
def Apart (rows : K → Option V) (values : V → List X) : Prop :=
  ∀ k k' v v' x, rows k = some v → rows k' = some v' → x ∈ values v → x ∈ values v' → k = k'

theorem IndexOf.apart {index : X → Option K} {rows : K → Option V} {values : V → List X}
    (h : IndexOf index rows values) : Apart rows values := by
  intro k k' v v' x hk hk' hx hx'
  have heq := ((h x k).mpr ⟨v,hk,hx⟩).symm.trans ((h x k').mpr ⟨v',hk',hx'⟩)
  exact Option.some.inj heq

theorem indexOf_empty (values : V → List X) :
    IndexOf (fun _ => none) (fun _ : K => none) values := by
  intro x k
  simp

variable [DecidableEq X]

/-- An index without some values. -/
def dropValues (index : X → Option K) (xs : List X) (x : X) : Option K :=
  if x ∈ xs then none else index x

/-- An index with some values that lead to a key. -/
def takeValues (index : X → Option K) (k : K) (xs : List X) (x : X) : Option K :=
  if x ∈ xs then some k else index x

variable {index : X → Option K} {rows : K → Option V} {values : V → List X} {k : K} {v : V}

/-- Values that no row has are not in the index. -/
theorem IndexOf.dropValues_eq (h : IndexOf index rows values) {xs : List X}
    (hfree : ∀ x ∈ xs, ∀ k v, rows k = some v → x ∉ values v) : dropValues index xs = index := by
  funext x
  by_cases hx : x ∈ xs
  · have hnone : index x = none := by
      cases hk : index x with
      | none => rfl
      | some k =>
        obtain ⟨v,hv,hxv⟩ := (h x k).mp hk
        exact absurd hxv (hfree x hx k v hv)
    simp [dropValues,hx,hnone]
  · simp [dropValues,hx]

variable [DecidableEq K]

theorem IndexOf.remove (h : IndexOf index rows values) (hk : rows k = some v) :
    IndexOf (dropValues index (values v)) (update rows k none) values := by
  intro x k'
  by_cases hx : x ∈ values v
  · constructor
    · intro hno
      simp [dropValues,hx] at hno
    · rintro ⟨w,hw,hxw⟩
      by_cases heq : k' = k
      · subst heq
        simp at hw
      · rw [update_of_ne heq] at hw
        exact absurd (h.apart k' k w v x hw hk hxw hx) heq
  · rw [dropValues,if_neg hx,h x k']
    by_cases heq : k' = k
    · subst heq
      simp [hk,hx]
    · rw [update_of_ne heq]

theorem IndexOf.insert (h : IndexOf index rows values) (hk : rows k = none)
    (hapart : Apart (update rows k (some v)) values) :
    IndexOf (takeValues index k (values v)) (update rows k (some v)) values := by
  intro x k'
  by_cases hx : x ∈ values v
  · rw [takeValues,if_pos hx]
    constructor
    · intro heq
      cases heq
      exact ⟨v,by simp,hx⟩
    · rintro ⟨w,hw,hxw⟩
      rw [hapart k' k w v x hw (by simp) hxw hx]
  · rw [takeValues,if_neg hx,h x k']
    by_cases heq : k' = k
    · subst heq
      simp [hk,hx]
    · rw [update_of_ne heq]

end
end Tailnet
