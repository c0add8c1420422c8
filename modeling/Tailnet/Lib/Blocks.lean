import Mathlib

/-! Sets of numbers stored as a list of equally wide blocks. Block `k` of a list
holds the members from `k*W` up to `(k+1)*W`; each block is itself a set of
numbers below `W`. Scans over the blocks are reduced to scans of one block. -/
namespace Tailnet
open List Nat

/-- `o` is the least member of `s`, if there is one. -/
def IsFirst (s : Finset ℕ) : Option ℕ → Prop
  | none => s = ∅
  | some m => IsLeast (s : Set ℕ) m

/-- `o` is the greatest member of `s`, if there is one. -/
def IsLast (s : Finset ℕ) : Option ℕ → Prop
  | none => s = ∅
  | some m => IsGreatest (s : Set ℕ) m

/-- `l` lists the members of `s` in increasing order. -/
def Enumerates (s : Finset ℕ) (l : List ℕ) : Prop :=
  l.Pairwise (· < ·) ∧ ∀ i, i ∈ l ↔ i ∈ s

variable {s : Finset ℕ}

theorem IsFirst.mem {m : ℕ} (h : IsFirst s (some m)) : m ∈ s := h.1
theorem IsLast.mem {m : ℕ} (h : IsLast s (some m)) : m ∈ s := h.1

theorem IsFirst.image_add {o : Option ℕ} (h : IsFirst s o) (k : ℕ) :
    IsFirst (s.image (k + ·)) (o.map (k + ·)) := by
  cases o with
  | none => exact Finset.image_eq_empty.mpr h
  | some m =>
    refine ⟨Finset.mem_image_of_mem _ h.mem,fun i hi => ?_⟩
    obtain ⟨j,hj,rfl⟩ := Finset.mem_image.mp hi
    exact Nat.add_le_add_left (h.2 hj) k

/-- The first member of two sets, one of which is below the other. -/
theorem IsFirst.or {t : Finset ℕ} {o o' : Option ℕ} (h : IsFirst s o) (h' : IsFirst t o')
    (hle : ∀ i ∈ s, ∀ j ∈ t, i ≤ j) : IsFirst (s ∪ t) (o.or o') := by
  cases o with
  | none =>
    rw [IsFirst] at h
    rwa [h,Finset.empty_union]
  | some m =>
    refine ⟨Finset.mem_union_left t h.mem,fun i hi => ?_⟩
    exact (Finset.mem_union.mp hi).elim (fun hs => h.2 hs) (hle m h.mem i)

theorem IsFirst.unique {o o' : Option ℕ} (h : IsFirst s o) (h' : IsFirst s o') : o = o' := by
  cases o with
  | none =>
    cases o' with
    | none => rfl
    | some m =>
      rw [IsFirst] at h
      subst h
      cases h'.mem
  | some m =>
    cases o' with
    | none =>
      rw [IsFirst] at h'
      subst h'
      cases h.mem
    | some m' => exact congrArg some (IsLeast.unique h h')

variable {l : List ℕ}

theorem Enumerates.nodup (h : Enumerates s l) : l.Nodup :=
  h.1.imp fun hlt => hlt.ne

theorem Enumerates.length (h : Enumerates s l) : l.length = s.card := by
  have hs : l.toFinset = s := by
    ext i
    simp [h.2 i]
  rw [← hs,toFinset_card_of_nodup h.nodup]

/-- The members up to the one at a position are those before it and itself. -/
theorem Enumerates.card_filter_le (h : Enumerates s l) {k : ℕ} (hk : k < l.length) :
    (s.filter (· ≤ l[k])).card = k + 1 := by
  have hs : s.filter (· ≤ l[k]) = (l.take (k+1)).toFinset := by
    ext i
    rw [Finset.mem_filter,← h.2,mem_toFinset,mem_take_iff_getElem]
    constructor
    · rintro ⟨hi,hle⟩
      obtain ⟨j,hj,rfl⟩ := mem_iff_getElem.mp hi
      have hjk : ¬ k < j := fun hlt => absurd (pairwise_iff_getElem.mp h.1 k j hk hj hlt) (not_lt.mpr hle)
      exact ⟨j,by omega,rfl⟩
    · rintro ⟨j,hj,rfl⟩
      refine ⟨getElem_mem _,?_⟩
      rcases lt_or_ge j k with hlt | hge
      · exact (pairwise_iff_getElem.mp h.1 j k (by omega) hk hlt).le
      · obtain rfl : j = k := by omega
        exact le_rfl
  rw [hs,toFinset_card_of_nodup (h.nodup.sublist (take_sublist _ _)),length_take]
  omega

theorem Enumerates.unique {l l' : List ℕ} (h : Enumerates s l) (h' : Enumerates s l') : l = l' := by
  apply List.Perm.eq_of_pairwise (fun a b _ _ hab hba => absurd hab (lt_asymm hba)) h.1 h'.1
  rw [perm_ext_iff_of_nodup h.nodup h'.nodup]
  intro i
  rw [h.2,h'.2]

namespace Blocks

variable {β : Type}

/-- The set a list of blocks of width `W` stands for. -/
def toSet (W : ℕ) (S : β → Finset ℕ) : List β → Finset ℕ
  | [] => ∅
  | x::xs => S x ∪ (toSet W S xs).image (· + W)

/-- Scan the blocks upward, starting with number `k`, for the first hit of `f`. -/
def firstIn (W : ℕ) (f : β → Option ℕ) : ℕ → List β → Option ℕ
  | _, [] => none
  | k, x::xs =>
    match f x with
    | some i => some (k*W + i)
    | none => firstIn W f (k+1) xs

/-- Scan the blocks downward for the first hit of `f`. The list is in descending
order, so the number of a block is the length of what follows it. -/
def lastIn (W : ℕ) (f : β → Option ℕ) : List β → Option ℕ
  | [] => none
  | x::xs =>
    match f x with
    | some i => some (xs.length*W + i)
    | none => lastIn W f xs

/-- Concatenate the listings of all blocks, starting with number `k`. -/
def listIn (W : ℕ) (f : β → List ℕ) : ℕ → List β → List ℕ
  | _, [] => []
  | k, x::xs => (f x).map (k*W + ·) ++ listIn W f (k+1) xs

section
variable {W : ℕ} {S : β → Finset ℕ} {xs : List β}

theorem mem_toSet_cons {x : β} {i : ℕ} :
    i ∈ toSet W S (x::xs) ↔ i ∈ S x ∨ ∃ j ∈ toSet W S xs, j + W = i := by
  simp [toSet]

/-- A number is a member when the block it falls into has its remainder. -/
theorem mem_toSet (hW : 0 < W) (hS : ∀ x, ∀ i ∈ S x, i < W) {i : ℕ} :
    i ∈ toSet W S xs ↔ ∃ x, xs[i/W]? = some x ∧ i % W ∈ S x := by
  induction xs generalizing i with
  | nil => simp [toSet]
  | cons x xs ih =>
    rw [mem_toSet_cons]
    by_cases hi : i < W
    · rw [div_eq_of_lt hi,mod_eq_of_lt hi]
      simp only [List.getElem?_cons_zero,Option.some.injEq,exists_eq_left',or_iff_left_iff_imp,
        forall_exists_index,and_imp]
      intro j _ hj
      omega
    · have hd : i / W = (i - W)/W + 1 := by
        rw [div_eq_sub_div hW (by omega)]
      have hm : i % W = (i - W) % W := mod_eq_sub_mod (by omega)
      rw [hd,hm,List.getElem?_cons_succ,← ih]
      constructor
      · rintro (h | ⟨j,hj,rfl⟩)
        · exact absurd (hS x i h) hi
        · simpa using hj
      · intro h
        exact Or.inr ⟨i - W,h,by omega⟩

theorem toSet_lt (hS : ∀ x, ∀ i ∈ S x, i < W) {i : ℕ} (h : i ∈ toSet W S xs) : i < xs.length*W := by
  induction xs generalizing i with
  | nil => simp [toSet] at h
  | cons x xs ih =>
    rw [length_cons,add_mul,one_mul]
    rcases mem_toSet_cons.mp h with h | ⟨j,hj,rfl⟩
    · have := hS x i h
      omega
    · have := ih hj
      omega

theorem toSet_append (xs ys : List β) :
    toSet W S (xs ++ ys) = toSet W S xs ∪ (toSet W S ys).image (· + xs.length*W) := by
  induction xs with
  | nil => simp [toSet]
  | cons x xs ih =>
    simp only [cons_append,toSet,ih,Finset.image_union,Finset.image_image,length_cons,
      Finset.union_assoc]
    congr 3
    ext j
    simp only [Function.comp_apply]
    ring

theorem card_toSet (hS : ∀ x, ∀ i ∈ S x, i < W) (xs : List β) :
    (toSet W S xs).card = (xs.map fun x => (S x).card).sum := by
  induction xs with
  | nil => simp [toSet]
  | cons x xs ih =>
    have hd : Disjoint (S x) ((toSet W S xs).image (· + W)) := by
      rw [Finset.disjoint_left]
      intro i hi hj
      obtain ⟨j,_,rfl⟩ := Finset.mem_image.mp hj
      have := hS x _ hi
      omega
    rw [toSet,Finset.card_union_of_disjoint hd,
      Finset.card_image_of_injective _ (add_left_injective W),ih]
    simp

theorem toSet_eq_empty : toSet W S xs = ∅ ↔ ∀ x ∈ xs, S x = ∅ := by
  induction xs with
  | nil => simp [toSet]
  | cons x xs ih => simp [toSet,ih]

variable {f : β → Option ℕ}

theorem isFirst_firstIn (hf : ∀ x, IsFirst (S x) (f x))
    (hS : ∀ x, ∀ i ∈ S x, i < W) (xs : List β) (k : ℕ) :
    IsFirst ((toSet W S xs).image (k*W + ·)) (firstIn W f k xs) := by
  induction xs generalizing k with
  | nil => simp [firstIn,toSet,IsFirst]
  | cons x xs ih =>
    have hset : (toSet W S (x::xs)).image (k*W + ·) =
        (S x).image (k*W + ·) ∪ (toSet W S xs).image ((k+1)*W + ·) := by
      rw [toSet,Finset.image_union,Finset.image_image]
      congr 2
      ext j
      simp only [Function.comp_apply]
      ring
    have hscan : firstIn W f k (x::xs) = ((f x).map (k*W + ·)).or (firstIn W f (k+1) xs) := by
      rw [firstIn]
      cases f x <;> rfl
    rw [hset,hscan]
    refine ((hf x).image_add _).or (ih (k+1)) ?_
    simp only [Finset.mem_image,forall_exists_index,and_imp,add_mul,one_mul]
    rintro _ i hi rfl _ j _ rfl
    have := hS x i hi
    omega

/-- A scan finds the same block and the same member of it, whatever the width of the blocks. -/
theorem firstIn_eq_map (f : β → Option ℕ) (k : ℕ) (xs : List β) :
    ∃ hit : Option (ℕ × ℕ), (∀ p, hit = some p → ∃ x, f x = some p.2) ∧
      ∀ W, firstIn W f k xs = hit.map fun p => p.1*W + p.2 := by
  induction xs generalizing k with
  | nil => exact ⟨none,(fun _ h => by cases h),fun _ => rfl⟩
  | cons x xs ih =>
    cases hx : f x with
    | some i => exact ⟨some (k,i),(fun _ h => by cases h; exact ⟨x,hx⟩),fun W => by simp [firstIn,hx]⟩
    | none =>
      obtain ⟨hit,hfound,hhit⟩ := ih (k+1)
      exact ⟨hit,hfound,fun W => by rw [firstIn,hx]; exact hhit W⟩

theorem isFirst_firstIn_zero (hf : ∀ x, IsFirst (S x) (f x))
    (hS : ∀ x, ∀ i ∈ S x, i < W) (xs : List β) :
    IsFirst (toSet W S xs) (firstIn W f 0 xs) := by
  simpa using isFirst_firstIn hf hS xs 0

theorem mul_add_div_block (hW : 0 < W) (k j : ℕ) : (k*W + j)/W = k + j/W := by
  rw [Nat.mul_comm,Nat.mul_add_div hW]

/-- The members from a block on are found by a scan that starts there. -/
theorem isFirst_firstIn_drop (hW : 0 < W) (hf : ∀ x, IsFirst (S x) (f x))
    (hS : ∀ x, ∀ i ∈ S x, i < W) (xs : List β) (k : ℕ) :
    IsFirst ((toSet W S xs).filter (k*W ≤ ·)) (firstIn W f k (xs.drop k)) := by
  have hset : (toSet W S xs).filter (k*W ≤ ·) = (toSet W S (xs.drop k)).image (k*W + ·) := by
    ext i
    simp only [Finset.mem_filter,Finset.mem_image,mem_toSet hW hS,List.getElem?_drop]
    constructor
    · rintro ⟨⟨x,hx,hi⟩,hle⟩
      obtain ⟨j,rfl⟩ := Nat.exists_eq_add_of_le hle
      rw [mul_add_div_block hW] at hx
      rw [mul_add_mod_self_right] at hi
      exact ⟨j,⟨x,hx,hi⟩,rfl⟩
    · rintro ⟨j,⟨x,hx,hi⟩,rfl⟩
      refine ⟨⟨x,?_,?_⟩,Nat.le_add_right _ _⟩
      · rwa [mul_add_div_block hW]
      · rwa [mul_add_mod_self_right]
  rw [hset]
  exact isFirst_firstIn hf hS _ k

/-- The first member from `bit` on, by what the block of `bit` has from there on. -/
theorem isFirst_next (hW : 0 < W) (hf : ∀ x, IsFirst (S x) (f x)) (hS : ∀ x, ∀ i ∈ S x, i < W)
    {bit : ℕ} {x : β} (hx : xs[bit/W]? = some x) {next : Option ℕ}
    (hnext : IsFirst ((S x).filter (bit % W ≤ ·)) next) :
    IsFirst ((toSet W S xs).filter (bit ≤ ·))
      ((next.map (bit/W*W + ·)).or (firstIn W f (bit/W+1) (xs.drop (bit/W+1)))) := by
  have hbit := Nat.div_add_mod' bit W
  have hmod := Nat.mod_lt bit hW
  -- a member from `bit` on is in the block of `bit` or in one above it
  have hset : (toSet W S xs).filter (bit ≤ ·) =
      ((S x).filter (bit % W ≤ ·)).image (bit/W*W + ·) ∪ (toSet W S xs).filter ((bit/W+1)*W ≤ ·) := by
    ext i
    simp only [Finset.mem_union,Finset.mem_image,Finset.mem_filter,add_mul,one_mul]
    constructor
    · rintro ⟨hi,hle⟩
      by_cases habove : bit/W*W + W ≤ i
      · exact .inr ⟨hi,habove⟩
      · have hdiv : i/W = bit/W := Nat.div_eq_of_lt_le (by omega) (by rw [add_mul]; omega)
        obtain ⟨y,hy,hmem⟩ := (mem_toSet hW hS).mp hi
        rw [hdiv,hx] at hy
        cases hy
        have hi' := Nat.div_add_mod' i W
        rw [hdiv] at hi'
        exact .inl ⟨i % W,⟨hmem,by omega⟩,hi'⟩
    · rintro (⟨j,⟨hj,hle⟩,rfl⟩ | ⟨hi,hle⟩)
      · refine ⟨(mem_toSet hW hS).mpr ⟨x,?_,?_⟩,by omega⟩
        · rwa [mul_add_div_block hW,Nat.div_eq_of_lt (hS x j hj),Nat.add_zero]
        · rwa [mul_add_mod_self_right,Nat.mod_eq_of_lt (hS x j hj)]
      · exact ⟨hi,by omega⟩
  rw [hset]
  refine (hnext.image_add _).or (isFirst_firstIn_drop hW hf hS xs _) ?_
  simp only [Finset.mem_image,Finset.mem_filter,add_mul,one_mul]
  rintro _ ⟨j,⟨hj,-⟩,rfl⟩ i ⟨-,hi⟩
  have := hS x j hj
  omega

theorem isLast_lastIn (hf : ∀ x, IsLast (S x) (f x)) (hS : ∀ x, ∀ i ∈ S x, i < W) (xs : List β) :
    IsLast (toSet W S xs.reverse) (lastIn W f xs) := by
  induction xs with
  | nil => simp [lastIn,toSet,IsLast]
  | cons x xs ih =>
    have hx := hf x
    rw [reverse_cons,toSet_append,lastIn,length_reverse]
    have hone : toSet W S [x] = S x := by simp [toSet]
    rw [hone]
    cases hfx : f x with
    | some i =>
      rw [hfx] at hx
      refine ⟨?_,?_⟩
      · simp only [Finset.coe_union,Finset.coe_image,Set.mem_union,Set.mem_image,Finset.mem_coe]
        exact Or.inr ⟨i,hx.mem,by omega⟩
      · intro j hj
        simp only [Finset.coe_union,Finset.coe_image,Set.mem_union,Set.mem_image,Finset.mem_coe] at hj
        rcases hj with hj | ⟨j',hj',rfl⟩
        · have := toSet_lt hS hj
          rw [length_reverse] at this
          omega
        · have := hx.2 hj'
          omega
    | none =>
      rw [hfx,IsLast] at hx
      simpa [hx] using ih

theorem enumerates_listIn {f : β → List ℕ} (hf : ∀ x, Enumerates (S x) (f x))
    (hS : ∀ x, ∀ i ∈ S x, i < W) (xs : List β) (k : ℕ) :
    Enumerates ((toSet W S xs).image (k*W + ·)) (listIn W f k xs) := by
  induction xs generalizing k with
  | nil => simp [listIn,toSet,Enumerates]
  | cons x xs ih =>
    have he : ∀ j, j ∈ (toSet W S xs).image ((k+1)*W + ·) ↔ j ∈ listIn W f (k+1) xs :=
      fun j => ((ih (k+1)).2 j).symm
    refine ⟨?_,?_⟩
    · rw [listIn,pairwise_append]
      refine ⟨?_,(ih (k+1)).1,?_⟩
      · rw [pairwise_map]
        exact (hf x).1.imp (by intro a b hab; omega)
      · intro a ha b hb
        obtain ⟨i,hi,rfl⟩ := mem_map.mp ha
        obtain ⟨j,_,rfl⟩ := Finset.mem_image.mp ((he b).mpr hb)
        have := hS x i (((hf x).2 i).mp hi)
        rw [add_mul]
        omega
    · intro i
      rw [listIn,mem_append,← he]
      simp only [toSet,Finset.mem_image,Finset.mem_union,mem_map]
      constructor
      · rintro (⟨a,ha,rfl⟩ | ⟨a,ha,rfl⟩)
        · exact ⟨a,Or.inl (((hf x).2 a).mp ha),rfl⟩
        · exact ⟨a+W,Or.inr ⟨a,ha,rfl⟩,by ring⟩
      · rintro ⟨a,(ha | ⟨b,hb,rfl⟩),rfl⟩
        · exact Or.inl ⟨a,((hf x).2 a).mpr ha,rfl⟩
        · exact Or.inr ⟨b,hb,by ring⟩

/-- The concatenated listings enumerate the whole set. -/
theorem enumerates_listIn_zero {f : β → List ℕ} (hf : ∀ x, Enumerates (S x) (f x))
    (hS : ∀ x, ∀ i ∈ S x, i < W) (xs : List β) :
    Enumerates (toSet W S xs) (listIn W f 0 xs) := by
  simpa using enumerates_listIn hf hS xs 0

end
end Blocks
end Tailnet
