import Mathlib

/-! A machine word as the finite set of the positions of its ones. Counting
zeros at either end, counting ones and dropping the lowest one are read off
this set. -/
namespace Tailnet
open Finset BitVec
namespace Word

variable {w : ℕ}

/-- The positions of the ones of a word. -/
def bits (x : BitVec w) : Finset ℕ := (Finset.range w).filter (fun i => x.getLsbD i)

variable {x : BitVec w}

@[simp] theorem mem_bits {i : ℕ} : i ∈ bits x ↔ x.getLsbD i = true := by
  simp only [bits,mem_filter,mem_range,and_iff_right_iff_imp]
  exact lt_of_getLsbD

theorem bits_lt {i : ℕ} (h : i ∈ bits x) : i < w :=
  lt_of_getLsbD (mem_bits.mp h)

theorem bits_eq_empty : bits x = ∅ ↔ x = 0#w := by
  rw [zero_iff_eq_false,eq_empty_iff_forall_notMem]
  simp

theorem card_bits (x : BitVec w) : (bits x).card = x.cpop.toNat := by
  have h : ∀ n, n ≤ w →
      ((Finset.range n).filter (fun i => x.getLsbD i)).card = x.cpopNatRec n 0 := by
    intro n hn
    induction n with
    | zero => simp
    | succ n ih =>
      rw [range_add_one,filter_insert,cpopNatRec_succ,cpopNatRec_add,
        ← ih (by omega)]
      cases hx : x.getLsbD n
      · simp
      · rw [if_pos rfl,card_insert_of_notMem (by simp)]
        simp
  rw [toNat_cpop]
  exact h w le_rfl

/-- The trailing zeros of a nonzero word end at its lowest one. -/
theorem isLeast_ctz (hx : x ≠ 0#w) : IsLeast {i | i ∈ bits x} x.ctz.toNat := by
  refine ⟨mem_bits.mpr (getLsbD_true_ctz_of_ne_zero hx),?_⟩
  intro i hi
  by_contra hlt
  have hf := getLsbD_false_of_lt_ctz (x := x) (i := i) (by omega)
  simp [hf] at hi

theorem isGreatest_clz (hx : x ≠ 0#w) : IsGreatest {i | i ∈ bits x} (w - x.clz.toNat - 1) := by
  have hw : 0 < w := by
    rcases Nat.eq_zero_or_pos w with rfl | h
    · exact absurd (of_length_zero) hx
    · exact h
  have he : w - x.clz.toNat - 1 = w - 1 - x.clz.toNat := by omega
  rw [he]
  refine ⟨mem_bits.mpr (getLsbD_true_clz_of_ne_zero hw hx),?_⟩
  intro i hi
  by_contra hlt
  have hb := toNat_lt_two_pow_sub_clz (x := x)
  have hi' := Nat.ge_two_pow_of_testBit (mem_bits.mp hi)
  have hm : 2^(w - x.clz.toNat) ≤ 2^i := Nat.pow_le_pow_right (by omega) (by omega)
  omega

theorem ctz_eq_width_iff : x.ctz.toNat = w ↔ x = 0#w := by
  have h : x.ctz = BitVec.ofNat w w ↔ x = 0#w := by
    rw [ctz_eq_reverse_clz,← reverse_eq_zero_iff]
    simpa using clz_eq_iff_eq_zero (x := x.reverse)
  rw [← h]
  constructor
  · intro he
    apply eq_of_toNat_eq
    simpa using he
  · intro he
    simp [he]

/-- Subtracting one turns the trailing zeros into ones and the lowest one into a zero;
all higher positions keep their value. -/
theorem getLsbD_sub_one (hx : x ≠ 0#w) {i : ℕ} (hi : x.ctz.toNat ≤ i) :
    (x - 1#w).getLsbD i = (x.getLsbD i && decide (i ≠ x.ctz.toNat)) := by
  set k := x.ctz.toNat with hk
  have hleast := isLeast_ctz hx
  have hkw : k < w := bits_lt hleast.1
  have hlow : ∀ j, j < k → x.toNat.testBit j = false := by
    intro j hj
    exact getLsbD_false_of_lt_ctz hj
  have hdiv : x.toNat % 2^k = 0 := by
    apply Nat.eq_of_testBit_eq
    intro j
    rw [Nat.testBit_mod_two_pow,Nat.zero_testBit]
    by_cases hj : j < k
    · simp [hj,hlow j hj]
    · simp [hj]
  have hone : x.toNat.testBit k = true := mem_bits.mp hleast.1
  obtain ⟨m,hm⟩ : ∃ m, x.toNat = 2^k*(2*m+1) := by
    obtain ⟨q,hq⟩ := Nat.dvd_of_mod_eq_zero hdiv
    have hodd : q % 2 = 1 := by
      have ht : (2^k*q).testBit k = true := hq ▸ hone
      rw [Nat.testBit_two_pow_mul] at ht
      simpa using ht
    exact ⟨q/2,by rw [hq]; congr 1; omega⟩
  have hpos : 0 < 2^k := Nat.two_pow_pos k
  have hsub : (x - 1#w).toNat = 2^(k+1)*m + (2^k - 1) := by
    have hle : 1 ≤ x.toNat := by
      rw [hm]
      exact Nat.mul_pos hpos (by omega)
    have hlt := x.isLt
    rw [toNat_sub]
    have h1 : (1#w).toNat = 1 := by
      rw [toNat_ofNat]
      exact Nat.mod_eq_of_lt (Nat.one_lt_two_pow (by omega))
    rw [h1,show 2^w - 1 + x.toNat = x.toNat - 1 + 2^w by omega,Nat.add_mod_right,
      Nat.mod_eq_of_lt (by omega),hm,pow_succ]
    have he : 2^k*(2*m+1) = 2^k*2*m + 2^k := by ring
    omega
  have hx' : x.toNat = 2^(k+1)*m + 2^k := by rw [hm,pow_succ]; ring
  rw [BitVec.getLsbD,BitVec.getLsbD,hsub,hx']
  rcases Nat.lt_or_eq_of_le hi with hlt | rfl
  · have hr : 2^k - 1 < 2^(k+1) := by rw [pow_succ]; omega
    have hr' : 2^k < 2^(k+1) := by rw [pow_succ]; omega
    rw [Nat.testBit_two_pow_mul_add _ hr,Nat.testBit_two_pow_mul_add _ hr']
    simp [show ¬ i < k+1 by omega,show i ≠ k by omega]
  · have hr : 2^k - 1 < 2^(k+1) := by rw [pow_succ]; omega
    rw [Nat.testBit_two_pow_mul_add _ hr]
    simp

theorem bits_and_sub_one (hx : x ≠ 0#w) : bits (x &&& (x - 1#w)) = (bits x).erase x.ctz.toNat := by
  ext i
  simp only [mem_bits,mem_erase,getLsbD_and,Bool.and_eq_true]
  constructor
  · rintro ⟨h,h'⟩
    have hi := (isLeast_ctz hx).2 (mem_bits.mpr h)
    rw [getLsbD_sub_one hx hi] at h'
    simp only [Bool.and_eq_true,decide_eq_true_eq] at h'
    exact ⟨h'.2,h⟩
  · rintro ⟨hne,h⟩
    have hi := (isLeast_ctz hx).2 (mem_bits.mpr h)
    rw [getLsbD_sub_one hx hi]
    exact ⟨h,by simp [h,hne]⟩

end Word
end Tailnet
