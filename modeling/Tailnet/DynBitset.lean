import Tailnet.Bitset

/-! The growable bitset: a list of fixed-size bitsets of `W` words each, which grows when a bit beyond its
end is set and drops empty blocks at its end. It stands for a finite set of numbers. -/
namespace Tailnet
open List

structure DynBitset (W : ℕ) where
  inner : List (Bitset W)
  deriving DecidableEq

namespace DynBitset
variable {W : ℕ}

/-- The number of bits in a block. -/
def width (W : ℕ) : ℕ := W*64

def empty : DynBitset W := ⟨[]⟩

def clearAll (_ : DynBitset W) : DynBitset W := ⟨[]⟩

def truncateEmpty (b : DynBitset W) : DynBitset W := ⟨b.inner.rdropWhile Bitset.isEmpty⟩

/-- Zero all bits from `bit` on. -/
def zeroFrom (b : DynBitset W) (bit : ℕ) : DynBitset W :=
  let word := bit/width W
  let inner := b.inner.take (word+1)
  match inner[word]? with
  | none => ⟨inner⟩
  | some block => truncateEmpty ⟨inner.set word (block.intersect (.withBitsUpto (bit % width W)))⟩

def ensureCapacity (b : DynBitset W) (bit : ℕ) : DynBitset W :=
  ⟨b.inner ++ List.replicate (bit/width W + 1 - b.inner.length) .empty⟩

def set (b : DynBitset W) (bit : ℕ) : DynBitset W :=
  ⟨(b.ensureCapacity bit).inner.modify (bit/width W) fun block => block.set (bit % width W)⟩

def clear (b : DynBitset W) (bit : ℕ) : DynBitset W :=
  if bit/width W < b.inner.length then
    truncateEmpty ⟨b.inner.modify (bit/width W) fun block => block.clear (bit % width W)⟩
  else b

def test (b : DynBitset W) (bit : ℕ) : Bool :=
  match b.inner[bit/width W]? with
  | none => false
  | some block => block.test (bit % width W)

/-- The number of a block counts as 64 bits. -/
def firstSet (b : DynBitset W) : Option ℕ := Blocks.firstIn 64 Bitset.firstSet 0 b.inner

def nextSet (b : DynBitset W) (bit : ℕ) : Option ℕ :=
  match b.inner.drop (bit/width W) with
  | [] => none
  | block::rest =>
    match block.nextSet (bit % width W) with
    | some x => some (bit/width W*width W + x)
    | none => Blocks.firstIn (width W) (·.nextSet 0) (bit/width W + 1) rest

def lastSet (b : DynBitset W) : Option ℕ := Blocks.lastIn (width W) Bitset.lastSet b.inner.reverse

def intersectionTop (b other : DynBitset W) : Option ℕ :=
  Blocks.lastIn (width W) (fun p => p.1.intersectionTop p.2) (b.inner.zip other.inner).reverse

def intersects (b other : DynBitset W) : Bool := (b.inner.zip other.inner).any fun p => p.1.intersects p.2

def countOnes (b : DynBitset W) : ℕ := (b.inner.map Bitset.countOnes).sum

def withoutBits (b : DynBitset W) (bits : List ℕ) : DynBitset W := truncateEmpty (bits.foldl clear b)

def isEmpty (b : DynBitset W) : Bool := b.inner.all Bitset.isEmpty

def unionInner : List (Bitset W) → List (Bitset W) → List (Bitset W)
  | [],other => other
  | self,[] => self
  | x::self,y::other => x.union y :: unionInner self other

def union (b other : DynBitset W) : DynBitset W := ⟨unionInner b.inner other.inner⟩

def intersect (b other : DynBitset W) : DynBitset W :=
  truncateEmpty ⟨List.zipWith Bitset.intersect b.inner other.inner⟩

def bits (b : DynBitset W) : List ℕ := Blocks.listIn (width W) Bitset.bits 0 b.inner

def fromIter (l : List ℕ) : DynBitset W := truncateEmpty (l.foldl set empty)

/-- The set of indices a bitset stands for. -/
def toSet (b : DynBitset W) : Finset ℕ := Blocks.toSet (width W) Bitset.toSet b.inner

section
variable [NeZero W]

omit [NeZero W] in
theorem test_eq_any (b : DynBitset W) (i : ℕ) :
    b.test i = b.inner[i/width W]?.any fun x => x.test (i % width W) := by
  rw [test]
  cases b.inner[i/width W]? <;> rfl

theorem width_pos : 0 < width W := Nat.mul_pos (Nat.pos_of_ne_zero (NeZero.ne W)) (by decide)

variable {b : DynBitset W} {i : ℕ}

theorem mem_toSet : i ∈ b.toSet ↔ b.test i = true := by
  rw [toSet,Blocks.mem_toSet width_pos fun x j hj => Bitset.test_lt (Bitset.mem_toSet.mp hj),test]
  cases b.inner[i/width W]? with
  | none => simp
  | some block => simp [Bitset.mem_toSet]

omit [NeZero W] in
@[simp] theorem toSet_empty : (empty : DynBitset W).toSet = ∅ := rfl

omit [NeZero W] in
@[simp] theorem toSet_clearAll (b : DynBitset W) : b.clearAll.toSet = ∅ := rfl

omit [NeZero W] in
theorem toSet_eq_empty {block : Bitset W} (h : block.isEmpty = true) : block.toSet = ∅ := by
  ext i
  simp [Bitset.mem_toSet,Bitset.isEmpty_iff.mp h i]

omit [NeZero W] in
@[simp] theorem toSet_truncateEmpty (b : DynBitset W) : b.truncateEmpty.toSet = b.toSet := by
  obtain ⟨l⟩ := b
  rw [truncateEmpty,toSet,toSet]
  induction l using List.reverseRecOn with
  | nil => rfl
  | append_singleton l x ih =>
    by_cases hx : x.isEmpty = true
    · dsimp only at ih ⊢
      rw [rdropWhile_concat_pos _ _ _ hx,ih,Blocks.toSet_append]
      simp [Blocks.toSet,toSet_eq_empty hx]
    · rw [rdropWhile_concat_neg _ _ _ hx]

variable (W) in
theorem mod_lt (i : ℕ) : i % width W < W*64 := Nat.mod_lt i width_pos

variable (W) in
omit [NeZero W] in
theorem eq_iff_div_mod (i j : ℕ) : j = i ↔ j/width W = i/width W ∧ j % width W = i % width W := by
  constructor
  · rintro rfl
    exact ⟨rfl,rfl⟩
  · rintro ⟨hd,hm⟩
    rw [← Nat.div_add_mod j (width W),hd,hm,Nat.div_add_mod]

omit [NeZero W] in
theorem test_ensureCapacity (b : DynBitset W) (i j : ℕ) : (b.ensureCapacity i).test j = b.test j := by
  rw [test_eq_any,test_eq_any,ensureCapacity]
  by_cases hj : j/width W < b.inner.length
  · rw [List.getElem?_append_left hj]
  · have hnone : b.inner[j/width W]? = none := List.getElem?_eq_none (by omega)
    rw [List.getElem?_append_right (by omega),hnone,List.getElem?_replicate]
    split <;> simp

omit [NeZero W] in
theorem length_ensureCapacity (b : DynBitset W) (i : ℕ) : i/width W < (b.ensureCapacity i).inner.length := by
  simp only [ensureCapacity,length_append,length_replicate]
  omega

@[simp] theorem mem_set {i j : ℕ} : j ∈ (b.set i).toSet ↔ j = i ∨ j ∈ b.toSet := by
  rw [mem_toSet,mem_toSet,← test_ensureCapacity b i j,set,test,test,List.getElem?_modify,eq_iff_div_mod W i j]
  by_cases hd : i/width W = j/width W
  · have hlen := b.length_ensureCapacity i
    rw [hd] at hlen
    simp [hd,List.getElem?_eq_getElem hlen,Bitset.test_set _ (mod_lt W i)]
  · have hd' : ¬ j/width W = i/width W := fun h => hd h.symm
    simp [hd,hd']

@[simp] theorem mem_clear {i j : ℕ} : j ∈ (b.clear i).toSet ↔ j ≠ i ∧ j ∈ b.toSet := by
  rw [clear]
  split
  · rename_i hlen
    rw [toSet_truncateEmpty,mem_toSet,mem_toSet,test,test,List.getElem?_modify,Ne,eq_iff_div_mod W i j]
    by_cases hd : i/width W = j/width W
    · rw [hd] at hlen
      simp [hd,List.getElem?_eq_getElem hlen,Bitset.test_clear _ (mod_lt W i)]
    · have hd' : ¬ j/width W = i/width W := fun h => hd h.symm
      simp [hd,hd']
  · rename_i hlen
    refine ⟨fun h => ⟨?_,h⟩,fun h => h.2⟩
    rintro rfl
    rw [mem_toSet,test,List.getElem?_eq_none (by omega)] at h
    cases h

omit [NeZero W] in
theorem isEmpty_iff : b.isEmpty = true ↔ b.toSet = ∅ := by
  rw [isEmpty,toSet,Blocks.toSet_eq_empty,all_eq_true]
  refine forall₂_congr fun x _ => ?_
  rw [Bitset.isEmpty_iff,Finset.eq_empty_iff_forall_notMem]
  exact forall_congr' fun i => by rw [Bitset.mem_toSet,Bool.not_eq_true]

omit [NeZero W] in
theorem getElem?_unionInner (xs ys : List (Bitset W)) (k i : ℕ) :
    ((unionInner xs ys)[k]?.any fun x => x.test i) = true ↔
      (xs[k]?.any fun x => x.test i) = true ∨ (ys[k]?.any fun x => x.test i) = true := by
  induction xs generalizing ys k with
  | nil => simp [unionInner]
  | cons x xs ih =>
    cases ys with
    | nil => simp [unionInner]
    | cons y ys =>
      cases k with
      | zero => simp [unionInner]
      | succ k => simpa [unionInner] using ih ys k

@[simp] theorem mem_union {b c : DynBitset W} : i ∈ (b.union c).toSet ↔ i ∈ b.toSet ∨ i ∈ c.toSet := by
  simp only [mem_toSet,test_eq_any,union]
  exact getElem?_unionInner _ _ _ _

@[simp] theorem mem_intersect {b c : DynBitset W} :
    i ∈ (b.intersect c).toSet ↔ i ∈ b.toSet ∧ i ∈ c.toSet := by
  rw [intersect,toSet_truncateEmpty]
  simp only [mem_toSet,test_eq_any,List.getElem?_zipWith]
  cases b.inner[i/width W]? <;> cases c.inner[i/width W]? <;> simp

variable (W) in
omit [NeZero W] in
theorem lt_iff_div_mod (i n : ℕ) :
    i < n ↔ i/width W < n/width W ∨ i/width W = n/width W ∧ i % width W < n % width W := by
  have hi := Nat.div_add_mod i (width W)
  have hn := Nat.div_add_mod n (width W)
  rcases lt_trichotomy (i/width W) (n/width W) with h | h | h
  · simp [h,Nat.lt_of_div_lt_div h]
  · rw [h] at hi
    simp only [h,lt_irrefl,true_and,false_or]
    omega
  · have := Nat.lt_of_div_lt_div h
    constructor
    · intro hlt
      omega
    · omega

@[simp] theorem mem_zeroFrom {n i : ℕ} : i ∈ (b.zeroFrom n).toSet ↔ i ∈ b.toSet ∧ i < n := by
  have htake : (b.inner.take (n/width W + 1))[n/width W]? = b.inner[n/width W]? := by
    rw [List.getElem?_take,if_pos (by omega)]
  rw [zeroFrom,htake,lt_iff_div_mod W i n]
  cases hb : b.inner[n/width W]? with
  | none =>
    -- the bitset ends before the block of `n`
    have hlen := List.getElem?_eq_none_iff.mp hb
    have hsame : b.inner.take (n/width W + 1) = b.inner := take_of_length_le (by omega)
    dsimp only
    rw [hsame]
    refine ⟨fun h => ⟨h,.inl ?_⟩,fun h => h.1⟩
    rw [mem_toSet,test_eq_any] at h
    by_contra hc
    have hnone : b.inner[i/width W]? = none := List.getElem?_eq_none (by omega)
    simp [hnone] at h
  | some block =>
    dsimp only
    rw [toSet_truncateEmpty,mem_toSet,mem_toSet,test_eq_any,test_eq_any]
    obtain ⟨hlen,hget⟩ := List.getElem?_eq_some_iff.mp hb
    rcases lt_trichotomy (i/width W) (n/width W) with h | h | h
    · have hne : ¬ n/width W = i/width W := by omega
      have hle : i/width W < n/width W + 1 := by omega
      simp [hne,hle,h]
    · simp [h,hlen,hget,Bitset.test_withBitsUpto _ (mod_lt W i)]
    · have hle : ¬ i/width W < n/width W + 1 := by omega
      have hnot : ¬(i/width W < n/width W ∨ i/width W = n/width W ∧ i % width W < n % width W) := by omega
      simp [hle,hnot]

omit [NeZero W] in
theorem enumerates_bits (b : DynBitset W) : Enumerates b.toSet b.bits :=
  Blocks.enumerates_listIn_zero Bitset.enumerates_bits (fun _ _ h => Bitset.test_lt (Bitset.mem_toSet.mp h)) _

omit [NeZero W] in
theorem mem_bits : i ∈ b.bits ↔ i ∈ b.toSet := b.enumerates_bits.2 i

@[simp] theorem mem_fromIter {l : List ℕ} : i ∈ (fromIter l : DynBitset W).toSet ↔ i ∈ l := by
  have hfold : ∀ (l : List ℕ) (b : DynBitset W), i ∈ (l.foldl set b).toSet ↔ i ∈ l ∨ i ∈ b.toSet := by
    intro l
    induction l with
    | nil => simp
    | cons a l ih =>
      intro b
      rw [foldl_cons,ih,mem_set,mem_cons]
      tauto
  rw [fromIter,toSet_truncateEmpty,hfold]
  simp

omit [NeZero W] in
theorem toSet_lt_width (x : Bitset W) : ∀ i ∈ x.toSet, i < width W :=
  fun _ h => Bitset.test_lt (Bitset.mem_toSet.mp h)

theorem isFirst_nextSet (b : DynBitset W) (bit : ℕ) :
    IsFirst (b.toSet.filter (bit ≤ ·)) (b.nextSet bit) := by
  have hzero : ∀ x : Bitset W, IsFirst x.toSet (x.nextSet 0) := by
    intro x
    have hx := x.isFirst_nextSet (width_pos (W := W))
    rwa [Finset.filter_true_of_mem fun i _ => Nat.zero_le i] at hx
  rw [nextSet]
  cases hdrop : b.inner.drop (bit/width W) with
  | nil =>
    -- all members are in the blocks before
    rw [drop_eq_nil_iff] at hdrop
    refine Finset.filter_eq_empty_iff.mpr fun i hi hle => ?_
    have hlt := Blocks.toSet_lt toSet_lt_width hi
    have hbit := Nat.div_mul_le_self bit (width W)
    have := Nat.mul_le_mul_right (width W) hdrop
    omega
  | cons block rest =>
    have hget : b.inner[bit/width W]? = some block := by
      rw [← head?_drop,hdrop,head?_cons]
    have hrest : b.inner.drop (bit/width W + 1) = rest := by
      rw [← List.drop_drop,hdrop,drop_one,tail_cons]
    have hnext := Blocks.isFirst_next width_pos hzero toSet_lt_width hget
      (block.isFirst_nextSet (mod_lt W bit))
    rw [hrest] at hnext
    rw [toSet]
    cases hx : block.nextSet (bit % width W) with
    | some x => simpa [hx] using hnext
    | none => simpa [hx] using hnext

omit [NeZero W] in
theorem isLast_lastSet (b : DynBitset W) : IsLast b.toSet b.lastSet := by
  have h := Blocks.isLast_lastIn Bitset.isLast_lastSet toSet_lt_width b.inner.reverse
  rwa [reverse_reverse] at h

/-- The blocks that two bitsets share stand for the intersection. -/
theorem toSet_zip (b c : DynBitset W) :
    Blocks.toSet (width W) (fun p : Bitset W × Bitset W => (p.1.intersect p.2).toSet)
      (b.inner.zip c.inner) = b.toSet ∩ c.toSet := by
  ext i
  rw [Blocks.mem_toSet width_pos (fun p => toSet_lt_width _),Finset.mem_inter,mem_toSet,mem_toSet,
    test_eq_any,test_eq_any]
  simp only [List.getElem?_zip_eq_some,Prod.exists,Bitset.mem_toSet,Bitset.test_intersect]
  cases b.inner[i/width W]? <;> cases c.inner[i/width W]? <;> simp

theorem isLast_intersectionTop (b c : DynBitset W) :
    IsLast (b.toSet ∩ c.toSet) (b.intersectionTop c) := by
  have h := Blocks.isLast_lastIn (S := fun p : Bitset W × Bitset W => (p.1.intersect p.2).toSet)
    (fun p => p.1.isLast_intersectionTop p.2) (fun p => toSet_lt_width _) (b.inner.zip c.inner).reverse
  rwa [reverse_reverse,toSet_zip] at h

/-- The queries of a growable bitset are those of its set of indices, but for `first_set`: it counts
a block as 64 bits, so that it is right for blocks of one word and for a first member in the first
block only. -/
theorem dynBitset_queries (b c : DynBitset W) :
    IsLast b.toSet b.lastSet ∧ (∀ bit, IsFirst (b.toSet.filter (bit ≤ ·)) (b.nextSet bit)) ∧
    Enumerates b.toSet b.bits ∧ IsLast (b.toSet ∩ c.toSet) (b.intersectionTop c) ∧
    (IsFirst b.toSet b.firstSet ↔ W = 1 ∨ ∀ m, IsFirst b.toSet (some m) → m < W*64) := by
  refine ⟨b.isLast_lastSet,b.isFirst_nextSet,b.enumerates_bits,b.isLast_intersectionTop c,?_⟩
  have hfirst : IsFirst b.toSet (Blocks.firstIn (width W) Bitset.firstSet 0 b.inner) :=
    Blocks.isFirst_firstIn_zero Bitset.isFirst_firstSet toSet_lt_width b.inner
  obtain ⟨hit,hfound,hhit⟩ := Blocks.firstIn_eq_map (Bitset.firstSet (N := W)) 0 b.inner
  rw [firstSet,hhit]
  rw [hhit] at hfirst
  cases hit with
  | none => exact iff_of_true hfirst (.inr fun m hm => by cases hfirst.unique hm)
  | some p =>
    -- the first member is `i` of block `k`
    obtain ⟨k,i⟩ := p
    obtain ⟨x,hx⟩ := hfound _ rfl
    have hi : i < W*64 := toSet_lt_width x i (IsFirst.mem (hx ▸ x.isFirst_firstSet))
    have hsome : ∀ m, IsFirst b.toSet (some m) ↔ m = k*(W*64) + i :=
      fun m => ⟨fun h => Option.some.inj (h.unique hfirst),fun h => h ▸ hfirst⟩
    change IsFirst b.toSet (some (k*64 + i)) ↔ _
    simp only [hsome,forall_eq]
    cases k with
    | zero => simpa using .inr hi
    | succ k =>
      have hW : (k+1)*64 = (k+1)*(W*64) ↔ W = 1 := by
        rw [Nat.mul_right_inj (by omega)]
        omega
      have hout : ¬(k+1)*(W*64) + i < W*64 := by
        rw [Nat.add_mul]
        omega
      rw [Nat.add_right_cancel_iff,hW,or_iff_left hout]

/-- The queries of {65}, in blocks of one word. -/
theorem dynBitset_queries_one : (set empty 65 : DynBitset 1).firstSet = some 65 ∧
    Enumerates (set empty 65 : DynBitset 1).toSet (set empty 65 : DynBitset 1).bits :=
  ⟨by decide +kernel,(dynBitset_queries (set empty 65 : DynBitset 1) empty).2.2.1⟩

/-- With blocks of two words, the first set bit of {128} is reported as 64. -/
theorem firstSet_counts_words : (set empty 128 : DynBitset 2).bits = [128] ∧
    (set empty 128 : DynBitset 2).firstSet = some 64 := by
  decide +kernel

/-- No block is stored beyond those of the members. -/
def Canonical (b : DynBitset W) : Prop :=
  ∀ n, (∀ i ∈ b.toSet, i/width W < n) → b.inner.length ≤ n

theorem lt_length_of_mem (h : i ∈ b.toSet) : i/width W < b.inner.length := by
  obtain ⟨x,hx,-⟩ := (Blocks.mem_toSet width_pos toSet_lt_width).mp h
  exact (List.getElem?_eq_some_iff.mp hx).1

theorem canonical_iff : b.Canonical ↔ ∀ x, b.inner.getLast? = some x → x.isEmpty = false := by
  constructor
  · intro h x hx
    obtain ⟨l,hl⟩ := getLast?_eq_some_iff.mp hx
    by_contra hempty
    -- then all members are in the blocks before the last
    have hle := h l.length fun i hi => ?_
    · rw [hl,length_append,length_singleton] at hle
      omega
    · have hlt := lt_length_of_mem hi
      rw [hl,length_append,length_singleton] at hlt
      refine lt_of_le_of_ne (by omega) fun heq => ?_
      rw [mem_toSet,test_eq_any,hl,heq] at hi
      simp [Bitset.isEmpty_iff.mp (by simpa using hempty)] at hi
  · intro h n hn
    rcases eq_nil_or_concat b.inner with hnil | ⟨l,x,hl⟩
    · rw [hnil]
      exact Nat.zero_le n
    · have hx := h x (by simp [hl])
      obtain ⟨j,hj⟩ : ∃ j, x.test j = true := by
        by_contra hnone
        rw [Bitset.isEmpty_iff.mpr (by simpa using hnone)] at hx
        cases hx
      have hlt : j < width W := Bitset.test_lt hj
      have hdiv : (l.length*width W + j)/width W = l.length := by
        rw [Blocks.mul_add_div_block width_pos,Nat.div_eq_of_lt hlt,Nat.add_zero]
      have hmem := hn (l.length*width W + j) ((Blocks.mem_toSet width_pos toSet_lt_width).mpr
        ⟨x,by simp [hdiv,hl],by rwa [Nat.mul_add_mod_self_right,Nat.mod_eq_of_lt hlt,Bitset.mem_toSet]⟩)
      rw [hdiv] at hmem
      rw [hl,length_concat]
      omega

theorem canonical_truncateEmpty (b : DynBitset W) : b.truncateEmpty.Canonical := by
  rw [canonical_iff,truncateEmpty]
  intro x hx
  have hne : b.inner.rdropWhile Bitset.isEmpty ≠ [] := by
    intro hnil
    rw [hnil] at hx
    cases hx
  rw [getLast?_eq_some_getLast hne] at hx
  cases hx
  simpa using rdropWhile_last_not Bitset.isEmpty b.inner hne

omit [NeZero W] in
theorem length_set (b : DynBitset W) (bit : ℕ) :
    (b.set bit).inner.length = max b.inner.length (bit/width W + 1) := by
  simp only [set,ensureCapacity,length_modify,length_append,length_replicate]
  omega

omit [NeZero W] in
theorem length_unionInner (xs ys : List (Bitset W)) :
    (unionInner xs ys).length = max xs.length ys.length := by
  induction xs generalizing ys with
  | nil => simp [unionInner]
  | cons x xs ih =>
    cases ys with
    | nil => simp [unionInner]
    | cons y ys => simp [unionInner,ih,Nat.add_max_add_right]

/-- The bitsets made from the empty one by the operations. -/
inductive Built : DynBitset W → Prop
  | empty : Built empty
  | set {b : DynBitset W} (h : Built b) (bit : ℕ) : Built (b.set bit)
  | clear {b : DynBitset W} (h : Built b) (bit : ℕ) : Built (b.clear bit)
  | withoutBits {b : DynBitset W} (h : Built b) (bits : List ℕ) : Built (b.withoutBits bits)
  | zeroFrom {b : DynBitset W} (h : Built b) (bit : ℕ) : Built (b.zeroFrom bit)
  | clearAll {b : DynBitset W} (h : Built b) : Built b.clearAll
  | union {b c : DynBitset W} (hb : Built b) (hc : Built c) : Built (b.union c)
  | intersect {b c : DynBitset W} (hb : Built b) (hc : Built c) : Built (b.intersect c)

theorem Built.canonical (h : b.Built) : b.Canonical := by
  induction h with
  | empty => exact fun n _ => Nat.zero_le n
  | @set b _ bit ih =>
    intro n hn
    rw [length_set]
    have hbit := hn bit (mem_set.mpr (.inl rfl))
    have hlen := ih n fun i hi => hn i (mem_set.mpr (.inr hi))
    omega
  | clear _ bit ih =>
    rw [DynBitset.clear]
    split
    · exact canonical_truncateEmpty _
    · exact ih
  | withoutBits => exact canonical_truncateEmpty _
  | @zeroFrom b _ bit ih =>
    rw [DynBitset.zeroFrom]
    split
    · rename_i hnone
      rw [List.getElem?_eq_none_iff,length_take] at hnone
      rwa [take_of_length_le (by omega)]
    · exact canonical_truncateEmpty _
  | clearAll => exact fun n _ => Nat.zero_le n
  | union _ _ hb hc =>
    intro n hn
    rw [DynBitset.union,length_unionInner]
    exact Nat.max_le.mpr ⟨hb n fun i hi => hn i (mem_union.mpr (.inl hi)),
      hc n fun i hi => hn i (mem_union.mpr (.inr hi))⟩
  | intersect => exact canonical_truncateEmpty _

theorem Canonical.ext {c : DynBitset W} (hb : b.Canonical) (hc : c.Canonical)
    (h : b.toSet = c.toSet) : b = c := by
  have hlen : b.inner.length = c.inner.length := le_antisymm
    (hb _ fun i hi => lt_length_of_mem (h ▸ hi)) (hc _ fun i hi => lt_length_of_mem (h ▸ hi))
  obtain ⟨bs⟩ := b
  obtain ⟨cs⟩ := c
  congr 1
  refine List.ext_getElem hlen fun k hk hk' => Bitset.ext_test fun j => ?_
  by_cases hj : j < width W
  · have hmem : k*width W + j ∈ toSet ⟨bs⟩ ↔ k*width W + j ∈ toSet ⟨cs⟩ := by rw [h]
    have hdiv : (k*width W + j)/width W = k := by
      rw [Blocks.mul_add_div_block width_pos,Nat.div_eq_of_lt hj,Nat.add_zero]
    rw [mem_toSet,mem_toSet,test_eq_any,test_eq_any,hdiv,Nat.mul_add_mod_self_right,Nat.mod_eq_of_lt hj,
      List.getElem?_eq_getElem hk,List.getElem?_eq_getElem hk',Option.any_some,Option.any_some] at hmem
    exact Bool.eq_iff_iff.mpr hmem
  · have hfalse : ∀ x : Bitset W, x.test j = false := fun x => by
      by_contra ht
      exact hj (Bitset.test_lt (by simpa using ht))
    rw [hfalse,hfalse]

theorem intersects_iff {b c : DynBitset W} : b.intersects c = true ↔ ¬Disjoint b.toSet c.toSet := by
  rw [Finset.disjoint_iff_inter_eq_empty,← toSet_zip,Blocks.toSet_eq_empty,intersects,any_eq_true]
  push Not
  refine exists_congr fun p => and_congr_right fun _ => ?_
  rw [Bitset.intersects_iff]
  exact exists_congr fun i => by rw [Bitset.mem_toSet,Bitset.test_intersect,Bool.and_eq_true]

omit [NeZero W] in
theorem countOnes_eq_card (b : DynBitset W) : b.countOnes = b.toSet.card := by
  rw [toSet,Blocks.card_toSet toSet_lt_width,countOnes]
  exact congrArg List.sum (map_congr_left fun x _ => x.countOnes_eq_card)

/-- The last block of a growable bitset is never empty, so that two of them are equal just when they
have the same members, and their operations are those of the sets. -/
theorem dynBitset_canonical {b c : DynBitset W} (hb : b.Built) (hc : c.Built) :
    (∀ x, b.inner.getLast? = some x → x.isEmpty = false) ∧ (b = c ↔ b.toSet = c.toSet) ∧
    (∀ i, b.test i = true ↔ i ∈ b.toSet) ∧ (b.union c).toSet = b.toSet ∪ c.toSet ∧
    (b.intersect c).toSet = b.toSet ∩ c.toSet ∧
    (b.intersects c = true ↔ ¬Disjoint b.toSet c.toSet) ∧ (b.isEmpty = true ↔ b.toSet = ∅) ∧
    b.countOnes = b.toSet.card := by
  refine ⟨canonical_iff.mp hb.canonical,⟨fun h => h ▸ rfl,hb.canonical.ext hc.canonical⟩,
    fun i => mem_toSet.symm,?_,?_,intersects_iff,isEmpty_iff,b.countOnes_eq_card⟩
  · ext i
    rw [mem_union,Finset.mem_union]
  · ext i
    rw [mem_intersect,Finset.mem_inter]

/-- A bit that is set and cleared again. -/
theorem dynBitset_canonical_cleared :
    ((set empty 65 : DynBitset 1).clear 65).toSet = (empty : DynBitset 1).toSet ∧
    (set empty 65 : DynBitset 1).clear 65 = empty := by
  have hset : ((set empty 65 : DynBitset 1).clear 65).toSet = (empty : DynBitset 1).toSet := by
    ext i
    simp
  exact ⟨hset,(dynBitset_canonical ((Built.empty.set 65).clear 65) .empty).2.1.mpr hset⟩

end

theorem isFirst_firstSet (b : DynBitset 1) : IsFirst b.toSet b.firstSet :=
  Blocks.isFirst_firstIn_zero Bitset.isFirst_firstSet (fun _ _ h => Bitset.test_lt (Bitset.mem_toSet.mp h)) _

end DynBitset
end Tailnet
