import Tailnet.Lib.Slots
import Tailnet.DynBitset
import Tailnet.Bart.LongestMatch

/-! Indices of ids. Each index of the filter maps its keys to the set of the ids listed under them, and has no
key without an id. The closures that add an id under a key and take it away are the same for all indices. -/
namespace Tailnet
open Function DynBitset

/-- What is stored after a modification of what was stored. -/
def ModifyFn.result {T : Type} (f : ModifyFn T) (cur : Option T) : Option T :=
  ((f.call cur).2.apply (f.call cur).1).2

namespace PacketFilter

abbrev RuleBitset := DynBitset 1

/-- The first id of a free list is taken. -/
def popFreelist (b : RuleBitset) : Option ℕ × RuleBitset :=
  match b.firstSet with
  | some first => (some first,b.clear first)
  | none => (none,b)

theorem popFreelist_cases (b : RuleBitset) :
    (popFreelist b = (none,b) ∧ IsFirst b.toSet none) ∨
      ∃ i, popFreelist b = (some i,b.clear i) ∧ IsFirst b.toSet (some i) := by
  have h := b.isFirst_firstSet
  rw [popFreelist]
  cases hf : b.firstSet with
  | none => exact .inl ⟨rfl,hf ▸ h⟩
  | some i => exact .inr ⟨i,rfl,hf ▸ h⟩

/-- Add an id under a key. -/
def markId (id : ℕ) : ModifyFn RuleBitset where
  absent := .insert (DynBitset.empty.set id)
  present val := (val.set id,.noop)

/-- Take an id away from under a key; a key without ids goes. -/
def unmarkId (id : ℕ) : ModifyFn RuleBitset where
  absent := .noop
  present val := (val.clear id,if (val.clear id).isEmpty then .remove else .noop)

theorem result_markId (id : ℕ) (cur : Option RuleBitset) :
    (markId id).result cur = some ((cur.getD .empty).set id) := by
  cases cur <;> rfl

theorem result_unmarkId (id : ℕ) (cur : Option RuleBitset) : (unmarkId id).result cur =
    cur.bind fun val => if (val.clear id).isEmpty then none else some (val.clear id) := by
  cases cur with
  | none => rfl
  | some val =>
    simp only [ModifyFn.result,ModifyFn.call,unmarkId,Option.bind_some]
    split <;> rfl

section
variable {K : Type} {g : K → Option RuleBitset} {R R' : ℕ → K → Prop} {id : ℕ}

/-- An index holds the ids that are listed under a key, and no key without ids. -/
structure Marks (g : K → Option RuleBitset) (R : ℕ → K → Prop) : Prop where
  mem : ∀ i k, R i k ↔ ∃ b, g k = some b ∧ i ∈ b.toSet
  nonempty : ∀ k b, g k = some b → b.toSet ≠ ∅

theorem Marks.none : Marks (fun _ : K => none) fun _ _ => False := ⟨fun _ _ => by simp,fun _ _ h => by cases h⟩

theorem Marks.congr (h : Marks g R) (hR : ∀ i k, R' i k ↔ R i k) : Marks g R' :=
  ⟨fun i k => (hR i k).trans (h.mem i k),h.nonempty⟩

theorem Marks.eq_none_iff (h : Marks g R) {k : K} : g k = .none ↔ ∀ i, ¬R i k := by
  constructor
  · intro hk i hi
    obtain ⟨b,hb,-⟩ := (h.mem i k).mp hi
    cases hk.symm.trans hb
  · intro hno
    cases hk : g k with
    | none => rfl
    | some b =>
      obtain ⟨i,hi⟩ := Finset.nonempty_iff_ne_empty.mpr (h.nonempty k b hk)
      exact absurd ((h.mem i k).mpr ⟨b,hk,hi⟩) (hno i)

theorem Marks.mem_toSet (h : Marks g R) {k : K} {b : RuleBitset} (hk : g k = some b) (i : ℕ) :
    i ∈ b.toSet ↔ R i k := by
  rw [h.mem]
  simp [hk]

variable [DecidableEq K]

theorem Marks.mark (h : Marks g R) (k : K) :
    Marks (update g k ((markId id).result (g k))) fun i k' => R i k' ∨ i = id ∧ k' = k := by
  rw [result_markId]
  constructor
  · intro i k'
    by_cases hk : k' = k
    · subst hk
      rw [update_self,h.mem]
      cases g k' <;> simp [or_comm]
    · simp [hk,h.mem]
  · intro k' b hb
    by_cases hk : k' = k
    · subst hk
      rw [update_self,Option.some.injEq] at hb
      subst hb
      exact Finset.ne_empty_of_mem (mem_set.mpr (.inl rfl))
    · rw [update_of_ne hk] at hb
      exact h.nonempty k' b hb

theorem Marks.unmark (h : Marks g R) (k : K) :
    Marks (update g k ((unmarkId id).result (g k))) fun i k' => R i k' ∧ ¬(i = id ∧ k' = k) := by
  rw [result_unmarkId]
  constructor
  · intro i k'
    by_cases hk : k' = k
    · subst hk
      rw [update_self,h.mem]
      cases g k' with
      | none => simp
      | some b =>
        simp only [Option.some.injEq,exists_eq_left',and_true,Option.bind_some]
        split
        · rename_i hempty
          have hno : i ∉ (b.clear id).toSet := by simp [isEmpty_iff.mp hempty]
          rw [mem_clear] at hno
          simp only [reduceCtorEq,false_and,exists_false,iff_false]
          exact fun hi => hno ⟨hi.2,hi.1⟩
        · simp [and_comm]
    · simp [hk,h.mem]
  · intro k' b hb
    by_cases hk : k' = k
    · subst hk
      rw [update_self,Option.bind_eq_some_iff] at hb
      obtain ⟨old,-,hb⟩ := hb
      split at hb
      · cases hb
      · rename_i hempty
        cases hb
        exact fun he => hempty (isEmpty_iff.mpr he)
    · rw [update_of_ne hk] at hb
      exact h.nonempty k' b hb

def applyAll (f : ModifyFn RuleBitset) (ks : List K) (g : K → Option RuleBitset) : K → Option RuleBitset :=
  ks.foldl (fun g k => update g k (f.result (g k))) g

theorem Marks.markAll (h : Marks g R) (ks : List K) :
    Marks (applyAll (markId id) ks g) fun i k => R i k ∨ i = id ∧ k ∈ ks := by
  induction ks generalizing g R with
  | nil => exact h.congr fun i k => by simp
  | cons k ks ih =>
    refine (ih (h.mark k)).congr fun i k' => ?_
    rw [List.mem_cons]
    tauto

theorem Marks.unmarkAll (h : Marks g R) (ks : List K) :
    Marks (applyAll (unmarkId id) ks g) fun i k => R i k ∧ ¬(i = id ∧ k ∈ ks) := by
  induction ks generalizing g R with
  | nil => exact h.congr fun i k => by simp
  | cons k ks ih =>
    refine (ih (h.unmark k)).congr fun i k' => ?_
    rw [List.mem_cons]
    tauto

section
variable {X : Type} {owner : ℕ → Option X} {Q : X → K → Prop} {x : X} {ks : List K}

/-- The owner of an id lists the key. -/
def Listed (owner : ℕ → Option X) (Q : X → K → Prop) (i : ℕ) (k : K) : Prop := ∃ x, owner i = some x ∧ Q x k

omit [DecidableEq K] in
theorem listed_assign (hid : owner id = .none ∨ owner id = some x) {i : ℕ} {k : K} :
    Listed (update owner id (some x)) Q i k ↔ Listed owner Q i k ∨ i = id ∧ Q x k := by
  by_cases hi : i = id
  · subst hi
    rcases hid with hn | hs
    · simp [Listed,hn]
    · simp [Listed,hs]
  · simp [Listed,hi]

omit [DecidableEq K] in
theorem listed_release (hid : owner id = some x) {i : ℕ} {k : K} :
    Listed (update owner id .none) Q i k ↔ Listed owner Q i k ∧ ¬(i = id ∧ Q x k) := by
  by_cases hi : i = id
  · subst hi
    simp [Listed,hid]
  · simp [Listed,hi]

/-- An id is given to an owner, and added under the keys that the owner lists. -/
theorem Marks.assign (h : Marks g (Listed owner Q)) (hid : owner id = .none ∨ owner id = some x)
    (hks : ∀ k, k ∈ ks ↔ Q x k) :
    Marks (applyAll (markId id) ks g) (Listed (update owner id (some x)) Q) :=
  (h.markAll ks).congr fun i k => by rw [hks,listed_assign hid]

/-- An id is taken from its owner, and away from the keys that the owner lists. -/
theorem Marks.release (h : Marks g (Listed owner Q)) (hid : owner id = some x) (hks : ∀ k, k ∈ ks ↔ Q x k) :
    Marks (applyAll (unmarkId id) ks g) (Listed (update owner id .none) Q) :=
  (h.unmarkAll ks).congr fun i k => by rw [hks,listed_release hid]

end

/-- A store whose modifications change the value at one key, over a list of keys. -/
theorem foldlM_applyAll {S A : Type} (rel : S → (K → Option RuleBitset) → Prop) {f : ModifyFn RuleBitset}
    {step : S → A → Result S} (key : A → K)
    (hstep : ∀ s g a, rel s g → ∃ s', step s a = .ok s' ∧
      rel s' (update g (key a) (f.result (g (key a)))))
    (l : List A) {s : S} (h : rel s g) :
    ∃ s', l.foldlM step s = .ok s' ∧ rel s' (applyAll f (l.map key) g) := by
  induction l generalizing s g with
  | nil => exact ⟨s,rfl,h⟩
  | cons a l ih =>
    obtain ⟨s1,hs1,h1⟩ := hstep s g a h
    obtain ⟨s2,hs2,h2⟩ := ih h1
    exact ⟨s2,by simp [hs1,hs2],h2⟩

end
section
variable [IpNetOps] {t : SplitStackTable RuleBitset} {g : IpNet → Option RuleBitset}

/-- A routing table holds an index by truncated prefixes. -/
def Holds (t : SplitStackTable RuleBitset) (g : IpNet → Option RuleBitset) : Prop :=
  ∃ m : RouteMap RuleBitset, t.Rep m ∧ m.lookup = g

theorem Holds.empty : Holds .empty fun _ => none := ⟨∅,SplitStackTable.empty_rep,rfl⟩

def modifyAll (f : ModifyFn RuleBitset) (pfxs : List IpNet) (t : SplitStackTable RuleBitset) :
    Result (SplitStackTable RuleBitset) :=
  pfxs.foldlM (fun t pfx => Prod.snd <$> t.modify pfx f) t

theorem Holds.modifyAll (h : Holds t g) (f : ModifyFn RuleBitset) (pfxs : List IpNet) :
    ∃ t', PacketFilter.modifyAll f pfxs t = .ok t' ∧ Holds t' (applyAll f (pfxs.map IpNet.trunc) g) := by
  refine foldlM_applyAll Holds IpNet.trunc ?_ pfxs h
  rintro t _ p ⟨m,hrep,rfl⟩
  obtain ⟨t',ht',hrep'⟩ := SplitStackTable.modify_spec hrep p f
  refine ⟨t',by simp [ht'],_,hrep',funext fun q => ?_⟩
  rw [RouteMap.step,update_apply]
  exact RouteMap.lookup_set m p.trunc q _

theorem Holds.lookupAllValues (h : Holds t g) (ip : IpAddr) : ∃ vs, t.lookupAllValues ip = .ok vs ∧
    ∀ v, v ∈ vs ↔ ∃ p, p.contains ip = true ∧ g p = some v := by
  obtain ⟨m,hrep,rfl⟩ := h
  obtain ⟨vs,hvs,hmem⟩ := hrep.lookupAllValues ip
  refine ⟨vs,hvs,fun v => (hmem v).trans (exists_congr fun p => ?_)⟩
  constructor
  · exact fun hp => ⟨hp.1.2.2,hp.2⟩
  · intro hp
    have hmem : p ∈ m := Finmap.mem_iff.mpr ⟨v,hp.2⟩
    exact ⟨⟨hmem,((IpNetOps.contains_iff p ip).mp hp.1).1,hp.1⟩,hp.2⟩

theorem Holds.lookup (h : Holds t g) (ip : IpAddr) : ∃ o, t.lookup ip = .ok o ∧
    (o = none ∧ (∀ p, p.contains ip = true → g p = none) ∨ ∃ p b, o = some b ∧ g p = some b ∧ p.contains ip = true ∧
      ∀ q, q.contains ip = true → g q ≠ none → q.prefixLen ≤ p.prefixLen) := by
  obtain ⟨m,hrep,rfl⟩ := h
  have hcov : ∀ q, q.contains ip = true → m.lookup q ≠ none → Covers m ip q := fun q hq hm =>
    ⟨Finmap.mem_iff.mpr (Option.ne_none_iff_exists'.mp hm),((IpNetOps.contains_iff q ip).mp hq).1,hq⟩
  obtain ⟨_,_,_,-,-,-,-,-,-,-,⟨ho,hno⟩ | ⟨p,b,hp,hb,ho⟩,-⟩ := hrep.lookups ip
  · exact ⟨none,ho,.inl ⟨rfl,fun p hp => by_contra fun hm => hno p (hcov p hp hm)⟩⟩
  · exact ⟨some b,ho,.inr ⟨p,b,rfl,hb,hp.1.2.2,fun q hq hm => hp.2 q (hcov q hq hm)⟩⟩

/-- Two prefixes of one length that contain an address are one prefix. -/
theorem trunc_eq_of_contains {p q : IpNet} {ip : IpAddr} (hp : p.contains ip = true) (hq : q.contains ip = true)
    (hlen : p.prefixLen = q.prefixLen) : p.trunc = q.trunc := by
  rw [IpNet.contains_iff] at hp hq
  rw [IpNet.trunc_eq_iff]
  exact ⟨hp.1.trans hq.1.symm,by rw [hp.2,hq.2,hlen]⟩

def unionAll (l : List RuleBitset) : RuleBitset := l.foldl (fun acc x => acc.union x) .empty

omit [IpNetOps] in
theorem mem_unionAll {l : List RuleBitset} {i : ℕ} : i ∈ (unionAll l).toSet ↔ ∃ b ∈ l, i ∈ b.toSet := by
  have hfold : ∀ acc : RuleBitset, i ∈ (l.foldl (fun acc x => acc.union x) acc).toSet ↔
      i ∈ acc.toSet ∨ ∃ b ∈ l, i ∈ b.toSet := by
    induction l with
    | nil => simp
    | cons b l ih =>
      intro acc
      rw [List.foldl_cons,ih,mem_union]
      simp [or_assoc]
  rw [unionAll,hfold]
  simp

omit [IpNetOps] in
/-- The ids that are listed under one of the keys looked up. -/
theorem Marks.mem_unionAll {K : Type} {g : K → Option RuleBitset} {R : ℕ → K → Prop} (h : Marks g R)
    {P : K → Prop} {vs : List RuleBitset} (hvs : ∀ v, v ∈ vs ↔ ∃ k, P k ∧ g k = some v) (i : ℕ) :
    i ∈ (unionAll vs).toSet ↔ ∃ k, P k ∧ R i k := by
  rw [PacketFilter.mem_unionAll]
  constructor
  · rintro ⟨b,hb,hi⟩
    obtain ⟨k,hk,hg⟩ := (hvs b).mp hb
    exact ⟨k,hk,(h.mem i k).mpr ⟨b,hg,hi⟩⟩
  · rintro ⟨k,hk,hR⟩
    obtain ⟨b,hg,hi⟩ := (h.mem i k).mp hR
    exact ⟨b,(hvs b).mpr ⟨k,hk,hg⟩,hi⟩

end
end PacketFilter
end Tailnet
