import Tailnet.Lib.Blocks
import Tailnet.Lib.Result
import Tailnet.Lib.Word

/-! The fixed-size bitset: `N` words of 64 bits, bit `i` being bit `i % 64` of
word `i / 64`. Its queries are scans over the words. An index at or above `64*N`
is outside the domain of the source's accessors (they panic there); here such a
bit reads as clear and is never set, and all callers index by an octet or by a
remainder of the width. -/
namespace Tailnet
open Finset BitVec Word

structure Bitset (N : ℕ) where
  words : Vector (BitVec 64) N
  deriving DecidableEq

abbrev Bitset256 := Bitset 4

namespace Bitset

variable {N : ℕ}

def wordIdx (bit : ℕ) : ℕ := bit / 64

def subwordIdx (bit : ℕ) : BitVec 64 := 1#64 <<< (bit % 64)

/-- The number of bits required to represent `val`. -/
def len (val : BitVec 64) : ℕ := 64 - val.clz.toNat

def empty : Bitset N := ⟨Vector.replicate N 0#64⟩

variable (b : Bitset N)

/-- Word `i`, zero beyond the end. -/
def word (i : ℕ) : BitVec 64 := (b.words[i]?).getD 0#64

def set (bit : ℕ) : Bitset N :=
  ⟨b.words.setIfInBounds (wordIdx bit) (b.word (wordIdx bit) ||| subwordIdx bit)⟩

def clear (bit : ℕ) : Bitset N :=
  ⟨b.words.setIfInBounds (wordIdx bit) (b.word (wordIdx bit) &&& ~~~ subwordIdx bit)⟩

def test (bit : ℕ) : Bool :=
  (b.word (wordIdx bit) &&& subwordIdx bit) != 0#64

/-- The lowest one of a word, if its trailing zeros do not fill it. -/
def wordFirst (w : BitVec 64) : Option ℕ :=
  if w.ctz.toNat = 64 then none else some w.ctz.toNat

/-- The highest one of a nonzero word. -/
def wordLast (w : BitVec 64) : Option ℕ :=
  if w = 0#64 then none else some (len w - 1)

/-- The inner iterator of `bits`: yield the lowest one, then drop it. A word has
at most 64 ones, so 64 rounds exhaust it. -/
def wordBits : ℕ → BitVec 64 → List ℕ
  | 0, _ => []
  | n+1, w => if w.ctz.toNat = 64 then [] else w.ctz.toNat :: wordBits n (w &&& (w - 1#64))

def firstSet : Option ℕ := Blocks.firstIn 64 wordFirst 0 b.words.toList

/-- The lowest one of a nonzero word. -/
def wordLowest (w : BitVec 64) : Option ℕ := if w = 0#64 then none else some w.ctz.toNat

/-- The first set bit from `bit` on: in what is left of its word, or in a later one. -/
def nextSet (bit : ℕ) : Option ℕ :=
  let word := wordIdx bit
  let first := b.word word >>> (bit % 64)
  if first ≠ 0#64 then some (bit + first.ctz.toNat)
  else Blocks.firstIn 64 wordLowest (word+1) (b.words.toList.drop (word+1))

def lastSet : Option ℕ := Blocks.lastIn 64 wordLast b.words.toList.reverse

def bits : List ℕ := Blocks.listIn 64 (wordBits 64) 0 b.words.toList

def isEmpty : Bool := b.words.toList.all (· == 0#64)

def countOnes : ℕ := (b.words.toList.map fun w => w.cpop.toNat).sum

def union (b c : Bitset N) : Bitset N := ⟨Vector.zipWith (· ||| ·) b.words c.words⟩

def intersect (b c : Bitset N) : Bitset N := ⟨Vector.zipWith (· &&& ·) b.words c.words⟩

def intersects (b c : Bitset N) : Bool :=
  (b.words.toList.zip c.words.toList).any fun p => p.1 &&& p.2 != 0#64

def intersectionTop (b c : Bitset N) : Option ℕ :=
  Blocks.lastIn 64 wordLast (Vector.zipWith (· &&& ·) b.words c.words).toList.reverse

/-- Word `i` of the mask with all bits up to and including `n` set. -/
def maskWord (i n : ℕ) : BitVec 64 :=
  if (n+1)/64 > i then BitVec.allOnes 64
  else if (n+1)/64 < i then 0#64
  else (1#64 <<< ((n+1) % 64)) - 1#64

def buildRankMask (n : ℕ) : Bitset N := ⟨Vector.ofFn fun i => maskWord i n⟩

/-- All bits below `n`. -/
def withBitsUpto (n : ℕ) : Bitset N := ⟨Vector.ofFn fun i =>
  if i.val < n/64 then BitVec.allOnes 64 else if i.val = n/64 then (1#64 <<< (n % 64)) - 1#64 else 0#64⟩

/-- The number of bits set up to and including `i`. -/
def rank (i : ℕ) : ℕ := ((buildRankMask i).intersect b).countOnes

/-- `rank` for 256 bits; the lookup table of masks holds `buildRankMask i` at `i`. -/
def rank256 (b : Bitset256) (i : ℕ) : ℕ := b.rank i

/-- The set of indices a bitset stands for. -/
def toSet (b : Bitset N) : Finset ℕ := Blocks.toSet 64 Word.bits b.words.toList

theorem word_eq_toList (i : ℕ) : b.word i = (b.words.toList[i]?).getD 0#64 := by
  simp [word]

theorem word_eq_getElem {i : ℕ} (h : i < N) : b.word i = b.words[i] := by
  simp [word,h]

theorem word_of_le {i : ℕ} (h : N ≤ i) : b.word i = 0#64 := by
  simp [word,h]

theorem and_subwordIdx_ne_zero (w : BitVec 64) (bit : ℕ) :
    (w &&& subwordIdx bit != 0#64) = w.getLsbD (bit % 64) := by
  have hb : bit % 64 < 64 := Nat.mod_lt _ (by omega)
  rw [Bool.eq_iff_iff,bne_iff_ne,ne_eq,zero_iff_eq_false]
  simp only [subwordIdx,getLsbD_and,not_forall,Bool.not_eq_false,Bool.and_eq_true]
  constructor
  · rintro ⟨i,hw,hs⟩
    have hi : i = bit % 64 := by
      simp only [getLsbD_shiftLeft,getLsbD_one,Bool.and_eq_true,decide_eq_true_eq,
        Bool.not_eq_true',decide_eq_false_iff_not] at hs
      omega
    exact hi ▸ hw
  · intro h
    exact ⟨bit % 64,h,by simp [hb]⟩

theorem test_eq (i : ℕ) : b.test i = (b.word (i/64)).getLsbD (i % 64) :=
  and_subwordIdx_ne_zero _ _

theorem mem_toSet {b : Bitset N} {i : ℕ} : i ∈ b.toSet ↔ b.test i = true := by
  rw [toSet,Blocks.mem_toSet (by omega) (fun _ _ h => bits_lt h),test_eq,word_eq_toList]
  cases h : b.words.toList[i/64]? with
  | none => simp
  | some w => simp

theorem test_lt {b : Bitset N} {i : ℕ} (h : b.test i = true) : i < N*64 := by
  have := Blocks.toSet_lt (fun _ _ h => bits_lt h) (mem_toSet.mpr h)
  simpa using this

@[ext] theorem ext_test {b c : Bitset N} (h : ∀ i, b.test i = c.test i) : b = c := by
  cases b with | mk bw =>
  cases c with | mk cw =>
  congr 1
  ext k hk j hj
  have hh := h (k*64+j)
  rw [test_eq,test_eq,show (k*64+j)/64 = k by omega,show (k*64+j)%64 = j by omega,
    word_eq_getElem _ hk,word_eq_getElem _ hk] at hh
  simpa [getLsbD_eq_getElem hj] using hh

@[simp] theorem test_empty (i : ℕ) : (empty : Bitset N).test i = false := by
  by_cases h : i/64 < N
  · simp [test_eq,word_eq_getElem _ h,empty]
  · simp [test_eq,word_of_le _ (Nat.le_of_not_lt h)]

theorem getLsbD_subwordIdx (i j : ℕ) :
    (subwordIdx i).getLsbD (j % 64) = decide (i % 64 = j % 64) := by
  have hj : j % 64 < 64 := Nat.mod_lt _ (by omega)
  rw [Bool.eq_iff_iff]
  simp only [subwordIdx,getLsbD_shiftLeft,getLsbD_one,Bool.and_eq_true,
    decide_eq_true_eq,Bool.not_eq_true',decide_eq_false_iff_not]
  omega

theorem word_set {k : ℕ} (hk : k < N) (i : ℕ) (w : BitVec 64) :
    (Bitset.word ⟨b.words.setIfInBounds k w⟩ i : BitVec 64) = if i = k then w else b.word i := by
  by_cases hi : i < N
  · rw [word_eq_getElem _ hi,word_eq_getElem _ hi]
    simp only [Vector.getElem_setIfInBounds,eq_comm]
  · have hne : i ≠ k := by omega
    rw [word_of_le _ (by omega),word_of_le _ (by omega)]
    simp [hne]

theorem test_set {i : ℕ} (h : i < N*64) (j : ℕ) :
    (b.set i).test j = (decide (j = i) || b.test j) := by
  rw [test_eq,test_eq,set,word_set b (show wordIdx i < N by rw [wordIdx]; omega)]
  by_cases hw : j/64 = wordIdx i
  · rw [if_pos hw,← hw,getLsbD_or,getLsbD_subwordIdx,Bool.or_comm]
    congr 1
    rw [wordIdx] at hw
    rw [decide_eq_decide]
    omega
  · have hne : j ≠ i := by rintro rfl; exact hw rfl
    simp [hw,hne]

theorem test_clear {i : ℕ} (h : i < N*64) (j : ℕ) :
    (b.clear i).test j = (decide (j ≠ i) && b.test j) := by
  rw [test_eq,test_eq,clear,word_set b (show wordIdx i < N by rw [wordIdx]; omega)]
  by_cases hw : j/64 = wordIdx i
  · have hj : j % 64 < 64 := Nat.mod_lt _ (by omega)
    rw [if_pos hw,← hw,getLsbD_and,getLsbD_not,getLsbD_subwordIdx,Bool.and_comm]
    congr 1
    rw [wordIdx] at hw
    simp only [hj,decide_true,Bool.true_and,← decide_not]
    rw [decide_eq_decide]
    omega
  · have hne : j ≠ i := by rintro rfl; exact hw rfl
    simp [hw,hne]

theorem word_zipWith (f : BitVec 64 → BitVec 64 → BitVec 64) (hf : f 0#64 0#64 = 0#64)
    (b c : Bitset N) (i : ℕ) :
    (Bitset.word ⟨Vector.zipWith f b.words c.words⟩ i : BitVec 64) = f (b.word i) (c.word i) := by
  by_cases hi : i < N
  · simp [word_eq_getElem _ hi]
  · simp [word_of_le _ (Nat.le_of_not_lt hi),hf]

@[simp] theorem test_union (b c : Bitset N) (i : ℕ) :
    (b.union c).test i = (b.test i || c.test i) := by
  simp [test_eq,union,word_zipWith]

@[simp] theorem test_intersect (b c : Bitset N) (i : ℕ) :
    (b.intersect c).test i = (b.test i && c.test i) := by
  simp [test_eq,intersect,word_zipWith]

theorem isFirst_wordLowest (w : BitVec 64) : IsFirst (Word.bits w) (wordLowest w) := by
  rw [wordLowest]
  split
  · rename_i h
    exact bits_eq_empty.mpr h
  · rename_i h
    exact isLeast_ctz h

theorem isFirst_wordFirst (w : BitVec 64) : IsFirst (Word.bits w) (wordFirst w) := by
  simp only [wordFirst,ctz_eq_width_iff]
  exact isFirst_wordLowest w

theorem isFirst_shiftRight (w : BitVec 64) (r : ℕ) :
    IsFirst ((Word.bits w).filter (r ≤ ·)) ((wordLowest (w >>> r)).map (r + ·)) := by
  have hset : (Word.bits w).filter (r ≤ ·) = (Word.bits (w >>> r)).image (r + ·) := by
    ext i
    simp only [mem_filter,mem_image,mem_bits,getLsbD_ushiftRight]
    constructor
    · rintro ⟨hi,hle⟩
      obtain ⟨j,rfl⟩ := Nat.exists_eq_add_of_le hle
      exact ⟨j,hi,rfl⟩
    · rintro ⟨j,hj,rfl⟩
      exact ⟨hj,Nat.le_add_right r j⟩
  rw [hset]
  exact (isFirst_wordLowest (w >>> r)).image_add r

theorem isLast_wordLast (w : BitVec 64) : IsLast (Word.bits w) (wordLast w) := by
  rw [wordLast]
  split
  · rename_i h
    exact bits_eq_empty.mpr h
  · rename_i h
    exact isGreatest_clz h

theorem enumerates_wordBits (n : ℕ) (w : BitVec 64) (h : (Word.bits w).card ≤ n) :
    Enumerates (Word.bits w) (wordBits n w) := by
  induction n generalizing w with
  | zero =>
    have he : Word.bits w = ∅ := card_eq_zero.mp (by omega)
    simp [wordBits,he,Enumerates]
  | succ n ih =>
    rw [wordBits]
    split
    · rename_i hz
      have he := bits_eq_empty.mpr (ctz_eq_width_iff.mp hz)
      simp [he,Enumerates]
    · rename_i hz
      have hw : w ≠ 0#64 := fun h' => hz (ctz_eq_width_iff.mpr h')
      have hleast := isLeast_ctz hw
      have hand := bits_and_sub_one hw
      have hcard : (Word.bits (w &&& (w - 1#64))).card ≤ n := by
        rw [hand,card_erase_of_mem hleast.1]
        omega
      obtain ⟨hp,hm⟩ := ih _ hcard
      refine ⟨List.pairwise_cons.mpr ⟨?_,hp⟩,?_⟩
      · intro j hj
        rw [hm,hand,mem_erase] at hj
        exact lt_of_le_of_ne (hleast.2 hj.2) (Ne.symm hj.1)
      · intro j
        rw [List.mem_cons,hm,hand,mem_erase]
        constructor
        · rintro (rfl | hj)
          · exact hleast.1
          · exact hj.2
        · intro hj
          by_cases hc : j = w.ctz.toNat
          · exact Or.inl hc
          · exact Or.inr ⟨hc,hj⟩

theorem isFirst_firstSet : IsFirst b.toSet b.firstSet :=
  Blocks.isFirst_firstIn_zero isFirst_wordFirst (fun _ _ h => bits_lt h) _

theorem isFirst_nextSet {bit : ℕ} (h : bit < N*64) :
    IsFirst (b.toSet.filter (bit ≤ ·)) (b.nextSet bit) := by
  have hk : bit/64 < N := by omega
  have hword : b.words.toList[bit/64]? = some (b.word (bit/64)) := by
    simp [word_eq_getElem _ hk,hk]
  have hnext := Blocks.isFirst_next (by omega) isFirst_wordLowest (fun _ _ h => bits_lt h) hword
    (isFirst_shiftRight (b.word (bit/64)) (bit % 64))
  rw [nextSet,toSet]
  by_cases hz : b.word (bit/64) >>> (bit % 64) = 0#64
  · simpa [wordLowest,wordIdx,hz] using hnext
  · rw [if_pos (show b.word (wordIdx bit) >>> (bit % 64) ≠ 0#64 from hz)]
    simpa [wordLowest,wordIdx,hz,← Nat.add_assoc,Nat.div_add_mod'] using hnext

theorem isLast_lastSet : IsLast b.toSet b.lastSet := by
  have h := Blocks.isLast_lastIn isLast_wordLast (fun _ _ h => bits_lt h)
    b.words.toList.reverse
  rwa [List.reverse_reverse] at h

theorem enumerates_bits : Enumerates b.toSet b.bits := by
  apply Blocks.enumerates_listIn_zero _ (fun _ _ h => bits_lt h)
  intro w
  apply enumerates_wordBits
  have h := card_le_card (filter_subset (fun i => w.getLsbD i = true) (Finset.range 64))
  simpa [Word.bits] using h

theorem isLast_intersectionTop (b c : Bitset N) :
    IsLast (b.intersect c).toSet (b.intersectionTop c) :=
  isLast_lastSet (b.intersect c)

theorem isEmpty_iff {b : Bitset N} : b.isEmpty = true ↔ ∀ i, b.test i = false := by
  have h : b.isEmpty = true ↔ b.toSet = ∅ := by
    rw [toSet,Blocks.toSet_eq_empty,isEmpty,List.all_eq_true]
    simp only [beq_iff_eq,bits_eq_empty]
  rw [h,eq_empty_iff_forall_notMem]
  simp [mem_toSet]

theorem intersects_eq (b c : Bitset N) : b.intersects c = !(b.intersect c).isEmpty := by
  have hz : (b.intersect c).words.toList =
      (b.words.toList.zip c.words.toList).map fun p => p.1 &&& p.2 := by
    rw [intersect,Vector.toList_zipWith,← List.map_uncurry_zip_eq_zipWith]
    rfl
  rw [intersects,isEmpty,hz,List.all_map,List.any_eq_not_all_not]
  congr 2
  funext p
  simp [bne]

theorem intersects_iff {b c : Bitset N} :
    b.intersects c = true ↔ ∃ i, b.test i = true ∧ c.test i = true := by
  rw [intersects_eq,Bool.not_eq_true',← Bool.not_eq_true,isEmpty_iff]
  simp

theorem countOnes_eq_card : b.countOnes = b.toSet.card := by
  rw [toSet,Blocks.card_toSet (fun _ _ h => bits_lt h),countOnes]
  simp [card_bits]

theorem getLsbD_lowOnes {r : ℕ} (hr : r < 64) (j : ℕ) :
    ((1#64 <<< r) - 1#64).getLsbD j = decide (j < r) := by
  have hp : 2^r < 2^64 := Nat.pow_lt_pow_right (by omega) hr
  have hpos : 0 < 2^r := Nat.two_pow_pos r
  have h : ((1#64 <<< r) - 1#64).toNat = 2^r - 1 := by
    rw [toNat_sub,toNat_shiftLeft]
    simp only [toNat_ofNat,Nat.shiftLeft_eq]
    omega
  rw [BitVec.getLsbD,h,Nat.testBit_two_pow_sub_one]

theorem getLsbD_maskWord (k n : ℕ) {j : ℕ} (hj : j < 64) :
    (maskWord k n).getLsbD j = decide (k*64 + j ≤ n) := by
  rw [maskWord]
  split
  · have : k*64 + j ≤ n := by omega
    simp only [getLsbD_allOnes,hj,this]
  · split
    · have : ¬ k*64 + j ≤ n := by omega
      simp [this]
    · rw [getLsbD_lowOnes (Nat.mod_lt _ (by omega)),decide_eq_decide]
      omega

theorem test_buildRankMask (n : ℕ) {i : ℕ} (h : i < N*64) :
    (buildRankMask n : Bitset N).test i = decide (i ≤ n) := by
  have hk : i/64 < N := by omega
  rw [test_eq,word_eq_getElem _ hk]
  simp only [buildRankMask,Vector.getElem_ofFn]
  rw [getLsbD_maskWord _ _ (Nat.mod_lt _ (by omega)),decide_eq_decide]
  omega

theorem test_withBitsUpto (n : ℕ) {i : ℕ} (h : i < N*64) :
    (withBitsUpto n : Bitset N).test i = decide (i < n) := by
  have hk : i/64 < N := by omega
  rw [test_eq,word_eq_getElem _ hk]
  simp only [withBitsUpto,Vector.getElem_ofFn]
  split
  · have : i < n := by omega
    simp only [getLsbD_allOnes,Nat.mod_lt i (show 64 > 0 by omega),this]
  · split
    · rw [getLsbD_lowOnes (Nat.mod_lt _ (by omega)),decide_eq_decide]
      omega
    · have : ¬ i < n := by omega
      simp [this]

theorem rank_eq_card (i : ℕ) :
    b.rank i = (b.toSet.filter (· ≤ i)).card := by
  rw [rank,countOnes_eq_card]
  congr 1
  ext j
  rw [mem_toSet,mem_filter,mem_toSet,test_intersect,Bool.and_eq_true]
  constructor
  · rintro ⟨hm,hb⟩
    rw [test_buildRankMask _ (test_lt hb)] at hm
    exact ⟨hb,by simpa using hm⟩
  · rintro ⟨hb,hle⟩
    rw [test_buildRankMask _ (test_lt hb)]
    exact ⟨by simpa using hle,hb⟩

theorem toSet_set {i : ℕ} (h : i < N*64) : (b.set i).toSet = insert i b.toSet := by
  ext j
  simp [mem_toSet,test_set b h]

theorem toSet_clear {i : ℕ} (h : i < N*64) : (b.clear i).toSet = b.toSet.erase i := by
  ext j
  simp [mem_toSet,test_clear b h]

@[simp] theorem toSet_empty : (empty : Bitset N).toSet = ∅ := by
  ext j
  simp [mem_toSet]

/-- The rank at a machine word: the mask takes the word after its index, which overflows. -/
def rankAt (i : UInt64) : Result ℕ :=
  if i.toNat + 1 < 2^64 then .ok (b.rank i.toNat) else .error .overflow

/-- The queries of a bitset are those of its set of indices. -/
theorem bitset_queries (b c : Bitset N) :
    Enumerates b.toSet b.bits ∧ IsFirst b.toSet b.firstSet ∧ IsLast b.toSet b.lastSet ∧
    (∀ bit < N*64, IsFirst (b.toSet.filter (bit ≤ ·)) (b.nextSet bit)) ∧
    b.countOnes = b.toSet.card ∧ IsLast (b.toSet ∩ c.toSet) (b.intersectionTop c) ∧
    ∀ (s : Bitset256) (i : UInt64), s.rankAt i = .ok (s.toSet.filter (· ≤ i.toNat)).card ↔
      i ≠ 0xFFFFFFFFFFFFFFFF := by
  have hinter : (b.intersect c).toSet = b.toSet ∩ c.toSet := by
    ext i
    simp [mem_toSet]
  refine ⟨b.enumerates_bits,b.isFirst_firstSet,b.isLast_lastSet,fun bit h => b.isFirst_nextSet h,
    b.countOnes_eq_card,hinter ▸ b.isLast_intersectionTop c,fun s i => ?_⟩
  have hi := i.toNat_lt
  have hmax : i = 0xFFFFFFFFFFFFFFFF ↔ i.toNat = 2^64 - 1 := UInt64.toNat_inj.symm
  rw [rankAt,ne_eq,hmax]
  split
  · refine iff_of_true (by rw [rank_eq_card]) ?_
    omega
  · refine iff_of_false (fun h => by cases h) ?_
    omega

/-- The mask for the largest index overflows. -/
theorem rank_overflows : (Bitset.set empty 0 : Bitset256).rankAt 0xFFFFFFFFFFFFFFFF = .error .overflow := by
  decide

theorem rank_set {i : ℕ} (h : i < N*64) (hn : b.test i = false) (j : ℕ) :
    (b.set i).rank j = b.rank j + if i ≤ j then 1 else 0 := by
  rw [rank_eq_card,rank_eq_card,toSet_set b h,filter_insert]
  split
  · rw [card_insert_of_notMem]
    simp [mem_toSet,hn]
  · rfl

theorem rank_clear {i : ℕ} (h : i < N*64) (hb : b.test i = true) (j : ℕ) :
    (b.clear i).rank j + (if i ≤ j then 1 else 0) = b.rank j := by
  rw [rank_eq_card,rank_eq_card,toSet_clear b h,filter_erase]
  split
  · rename_i hij
    rw [card_erase_add_one]
    simp [mem_toSet,hb,hij]
  · rename_i hij
    rw [erase_eq_of_notMem (by simp [hij])]
    rfl

theorem rank_le_countOnes (i : ℕ) : b.rank i ≤ b.countOnes := by
  rw [rank_eq_card,countOnes_eq_card]
  exact card_filter_le _ _

theorem rank_pos {i : ℕ} (h : b.test i = true) : 0 < b.rank i := by
  rw [rank_eq_card,card_pos]
  exact ⟨i,by simp [mem_toSet,h]⟩

theorem rank_mono {i j : ℕ} (h : i ≤ j) : b.rank i ≤ b.rank j := by
  rw [rank_eq_card,rank_eq_card]
  apply card_le_card
  intro k hk
  simp only [mem_filter] at hk ⊢
  exact ⟨hk.1,by omega⟩

theorem rank_lt {i j : ℕ} (h : i < j) (hj : b.test j = true) :
    b.rank i < b.rank j := by
  rw [rank_eq_card,rank_eq_card]
  apply card_lt_card
  refine ⟨fun k hk => ?_,fun hs => ?_⟩
  · simp only [mem_filter] at hk ⊢
    exact ⟨hk.1,by omega⟩
  · have := hs (show j ∈ b.toSet.filter (· ≤ j) by simp [mem_toSet,hj])
    simp only [mem_filter] at this
    omega

end Bitset
end Tailnet
