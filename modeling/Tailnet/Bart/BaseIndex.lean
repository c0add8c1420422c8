import Tailnet.Bitset

/-! Base indices of the allotment routing table: a prefix of at most seven bits
inside one octet is numbered in heap order, so that halving an index gives the
next shorter prefix. The lookup mask of an index is the set of its ancestors. -/
namespace Tailnet

structure BaseIndex where
  val : UInt8
  ne_zero : val ≠ 0
  deriving DecidableEq

namespace BaseIndex

@[ext] theorem ext {i j : BaseIndex} (h : i.val = j.val) : i = j := by
  cases i
  cases j
  cases h
  rfl

def tryNew (val : UInt8) : Option BaseIndex :=
  if h : val ≠ 0 then some ⟨val,h⟩ else none

/-- The constructor of the source: a zero value panics. -/
def new (val : UInt8) : Result BaseIndex := Result.unwrap (tryNew val)

variable (i : BaseIndex)

def get : UInt8 := i.val

/-- The index of the prefix made of the first `prefixLen` bits of `octet`. -/
def fromPrefix (octet : UInt8) (prefixLen : ℕ) : Result BaseIndex := do
  Result.assert (decide (prefixLen ≤ 7))
  new (UInt8.ofNat (octet.toNat/2^(8 - prefixLen) + 2^prefixLen))

def fromPfx7 (octet : UInt8) : Result BaseIndex :=
  new (UInt8.ofNat (128 + octet.toNat/2))

/-- The number of significant bits of the index. -/
def len : ℕ := 8 - i.val.toBitVec.clz.toNat

/-- The octet and the number of its leading bits an index stands for. -/
def octetPrefix : UInt8 × ℕ :=
  let pfxLen := i.len - 1
  let shiftBits := 8 - pfxLen
  let mask := 255/2^shiftBits
  (UInt8.ofNat ((i.val.toNat &&& mask)*2^shiftBits),pfxLen)

def prefixBits (depth : ℕ) : ℕ := depth*8 + (i.len - 1)

/-- The index of the first `l` bits of `octet`; `fromPrefix` returns it. -/
def ofBits (octet : UInt8) (l : Fin 8) : BaseIndex where
  val := UInt8.ofNat (octet.toNat/2^(8 - l.val) + 2^l.val)
  ne_zero := by
    have ho := octet.toNat_lt
    have hl := l.isLt
    intro h
    have hv := congrArg UInt8.toNat h
    rw [UInt8.toNat_ofNat'] at hv
    generalize l.val = k at hv hl
    interval_cases k <;> simp at hv <;> omega

/-- The index of the empty prefix of an octet. -/
def one : BaseIndex := ⟨1,by decide⟩

theorem ofBits_toNat (o : UInt8) (l : Fin 8) :
    (ofBits o l).val.toNat = o.toNat/2^(8 - l.val) + 2^l.val := by
  have ho := o.toNat_lt
  have hl := l.isLt
  rw [ofBits,UInt8.toNat_ofNat']
  generalize l.val = k at hl
  interval_cases k <;> simp <;> omega

theorem toNat_pos : 0 < i.val.toNat := by
  rcases Nat.eq_zero_or_pos i.val.toNat with h | h
  · exact absurd (UInt8.toNat_inj.mp h) i.ne_zero
  · exact h

@[simp] theorem tryNew_val : tryNew i.val = some i := by
  simp [tryNew,i.ne_zero]

@[simp] theorem new_val : new i.val = .ok i := by
  simp [new]

@[simp] theorem new_one : new 1 = .ok one := new_val one

theorem fromPrefix_eq (o : UInt8) (l : Fin 8) : fromPrefix o l = .ok (ofBits o l) := by
  have hl : l.val ≤ 7 := by omega
  rw [fromPrefix]
  simp only [hl,decide_true,Result.assert_true,Result.bind_of_ok]
  exact new_val (ofBits o l)

theorem fromPfx7_eq (o : UInt8) : fromPfx7 o = .ok (ofBits o 7) := by
  rw [fromPfx7,← new_val (ofBits o 7)]
  congr 1
  apply UInt8.toNat_inj.mp
  rw [ofBits_toNat,UInt8.toNat_ofNat']
  have := o.toNat_lt
  simp
  omega

@[simp] theorem ofBits_zero (o : UInt8) : ofBits o 0 = one := by
  apply ext
  apply UInt8.toNat_inj.mp
  rw [ofBits_toNat]
  have := o.toNat_lt
  simp [one]
  omega

theorem ofBits_bounds (o : UInt8) (l : Fin 8) :
    2^l.val ≤ (ofBits o l).val.toNat ∧ (ofBits o l).val.toNat < 2^(l.val+1) := by
  rw [ofBits_toNat]
  have ho := o.toNat_lt
  have hl := l.isLt
  generalize l.val = k at hl
  interval_cases k <;> simp <;> omega

theorem ofBits_inj {o o' : UInt8} {l l' : Fin 8} :
    ofBits o l = ofBits o' l' ↔ l = l' ∧ o.toNat/2^(8 - l.val) = o'.toNat/2^(8 - l.val) := by
  constructor
  · intro h
    have hb := ofBits_bounds o l
    have hb' := ofBits_bounds o' l'
    rw [← h] at hb'
    have hl : l = l' := by
      have h1 := (Nat.pow_lt_pow_iff_right (a := 2) (by omega)).mp (lt_of_le_of_lt hb.1 hb'.2)
      have h2 := (Nat.pow_lt_pow_iff_right (a := 2) (by omega)).mp (lt_of_le_of_lt hb'.1 hb.2)
      omega
    subst hl
    have hv := congrArg (fun i => i.val.toNat) h
    simp only [ofBits_toNat] at hv
    exact ⟨rfl,by omega⟩
  · rintro ⟨rfl,h⟩
    apply ext
    apply UInt8.toNat_inj.mp
    rw [ofBits_toNat,ofBits_toNat,h]

/-- The longer of two prefixes of one octet has the greater index. -/
theorem ofBits_lt {o : UInt8} {l l' : Fin 8} (h : l < l') :
    (ofBits o l).val.toNat < (ofBits o l').val.toNat := by
  have hb := ofBits_bounds o l
  have hb' := ofBits_bounds o l'
  have := Nat.pow_le_pow_right (n := 2) (by omega) (show l.val + 1 ≤ l'.val from h)
  omega

theorem ofBits_div (o : UInt8) (l : Fin 8) {k : ℕ} (hk : k ≤ l.val) :
    (ofBits o l).val.toNat/2^k = (ofBits o ⟨l.val - k,by omega⟩).val.toNat := by
  rw [ofBits_toNat,ofBits_toNat]
  have hl := l.isLt
  dsimp only
  generalize l.val = m at hk hl
  have ho := o.toNat_lt
  interval_cases m <;> interval_cases k <;> simp <;> omega

end BaseIndex

/-- The loop of `lpm_entry`: a byte is shifted down to zero within eight rounds. -/
def lpmLoop : ℕ → ℕ → Bitset256 → Bitset256
  | 0,_,entry => entry
  | n+1,j,entry => if 0 < j then lpmLoop n (j/2) (entry.set j) else entry

/-- The mask of the indices that cover `index`. -/
def lpm (index : BaseIndex) : Bitset256 := lpmLoop 8 index.val.toNat .empty

theorem test_lpmLoop (n j k : ℕ) (entry : Bitset256) (hj : j < 256) :
    (lpmLoop n j entry).test k = true ↔
      entry.test k = true ∨ 0 < k ∧ ∃ m < n, k = j/2^m := by
  induction n generalizing j entry with
  | zero => simp [lpmLoop]
  | succ n ih =>
    rw [lpmLoop]
    split
    · rename_i hpos
      rw [ih _ _ (by omega),Bitset.test_set _ (show j < 4*64 by omega),Bool.or_eq_true,
        decide_eq_true_eq]
      constructor
      · rintro ((rfl | h) | ⟨hk,m,hm,rfl⟩)
        · exact .inr ⟨hpos,0,by omega,by simp⟩
        · exact .inl h
        · refine .inr ⟨hk,m+1,by omega,?_⟩
          rw [Nat.div_div_eq_div_mul,pow_succ,mul_comm]
      · rintro (h | ⟨hk,m,hm,rfl⟩)
        · exact .inl (.inr h)
        · cases m with
          | zero => exact .inl (.inl (by simp))
          | succ m =>
            refine .inr ⟨hk,m,by omega,?_⟩
            rw [Nat.div_div_eq_div_mul,pow_succ,mul_comm]
    · rename_i hpos
      have h0 : j = 0 := by omega
      subst h0
      simp only [Nat.zero_div]
      constructor
      · exact .inl
      · rintro (h | ⟨hk,_,_,rfl⟩)
        · exact h
        · omega

/-- The mask of a prefix of `octet` holds the indices of its shorter prefixes. -/
theorem test_lpm (o : UInt8) (l : Fin 8) (i : BaseIndex) :
    (lpm (.ofBits o l)).test i.val.toNat = true ↔ ∃ l' ≤ l, i = .ofBits o l' := by
  have hlt := (BaseIndex.ofBits o l).val.toNat_lt
  rw [lpm,test_lpmLoop _ _ _ _ hlt]
  have hb := BaseIndex.ofBits_bounds o l
  constructor
  · rintro (h | ⟨hpos,m,_,hm⟩)
    · simp at h
    · have hml : m ≤ l.val := by
        by_contra hc
        have := Nat.pow_le_pow_right (n := 2) (by omega) (show l.val+1 ≤ m by omega)
        rw [Nat.div_eq_of_lt (by omega)] at hm
        omega
      refine ⟨⟨l.val - m,by omega⟩,?_,?_⟩
      · rw [Fin.le_def]
        simp
      · apply BaseIndex.ext
        apply UInt8.toNat_inj.mp
        rw [hm,BaseIndex.ofBits_div o l hml]
  · rintro ⟨l',hl,rfl⟩
    have hl' : l'.val ≤ l.val := hl
    refine .inr ⟨BaseIndex.toNat_pos _,l.val - l'.val,by omega,?_⟩
    rw [BaseIndex.ofBits_div o l (by omega)]
    congr 3
    apply Fin.ext
    simp
    omega

theorem lpm_zero (i : BaseIndex) : (lpm i).test 0 = false := by
  rw [Bool.eq_false_iff]
  intro h
  rw [lpm,test_lpmLoop _ _ _ _ i.val.toNat_lt] at h
  simp at h

namespace BaseIndex

theorem len_bounds (i : BaseIndex) :
    1 ≤ i.len ∧ i.len ≤ 8 ∧ 2^(i.len - 1) ≤ i.val.toNat ∧ i.val.toNat < 2^i.len := by
  have hne : i.val.toBitVec ≠ 0#8 := by
    intro h
    exact i.ne_zero (UInt8.toBitVec_inj.mp h)
  have h1 := BitVec.two_pow_sub_clz_le_toNat_of_ne_zero (by decide) hne
  have h2 := BitVec.toNat_lt_two_pow_sub_clz (x := i.val.toBitVec)
  have h3 := BitVec.clz_lt_iff_ne_zero.mpr hne
  have h4 : i.val.toBitVec.clz.toNat < 8 := by simpa [BitVec.lt_def] using h3
  have he : 8 - 1 - i.val.toBitVec.clz.toNat = i.len - 1 := by
    rw [len]
    omega
  rw [he] at h1
  refine ⟨?_,?_,h1,h2⟩ <;> rw [len] <;> omega

@[simp] theorem len_ofBits (o : UInt8) (l : Fin 8) : (ofBits o l).len = l.val + 1 := by
  obtain ⟨h1,h8,hle,hlt⟩ := (ofBits o l).len_bounds
  have hb := ofBits_bounds o l
  have ha := (Nat.pow_lt_pow_iff_right (a := 2) (by omega)).mp (lt_of_le_of_lt hb.1 hlt)
  have hc := (Nat.pow_lt_pow_iff_right (a := 2) (by omega)).mp (lt_of_le_of_lt hle hb.2)
  omega

theorem octetPrefix_snd (i : BaseIndex) : i.octetPrefix.2 = i.len - 1 := rfl

theorem octetPrefix_fst (i : BaseIndex) :
    i.octetPrefix.1.toNat = (i.val.toNat - 2^(i.len - 1))*2^(8 - (i.len - 1)) := by
  obtain ⟨h1,h8,hle,hlt⟩ := i.len_bounds
  obtain ⟨m,hm⟩ : ∃ m, i.len = m+1 := ⟨i.len - 1,by omega⟩
  have hm8 : m < 8 := by omega
  rw [octetPrefix]
  simp only [hm,Nat.add_sub_cancel,UInt8.toNat_ofNat'] at hle hlt ⊢
  have hmask : 255/2^(8 - m) = 2^m - 1 := by
    interval_cases m <;> rfl
  rw [hmask,Nat.and_two_pow_sub_one_eq_mod]
  generalize i.val.toNat = x at hle hlt
  interval_cases m <;> simp at hle hlt ⊢ <;> omega

/-- An index is the one of its own prefix, whose remaining bits are zero. -/
theorem ofBits_octetPrefix (i : BaseIndex) (h : i.octetPrefix.2 < 8) :
    ofBits i.octetPrefix.1 ⟨i.octetPrefix.2,h⟩ = i := by
  obtain ⟨h1,h8,hle,hlt⟩ := i.len_bounds
  apply ext
  apply UInt8.toNat_inj.mp
  rw [ofBits_toNat,octetPrefix_fst]
  dsimp only [octetPrefix_snd]
  rw [Nat.mul_div_cancel _ (by positivity)]
  omega

end BaseIndex
end Tailnet
