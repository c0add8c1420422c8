import Tailnet.Bart.BaseIndex

/-! IP addresses and network prefixes. An address is the list of its octets, of
the length its family demands. The operations of the prefix crate that look at
the bits of a prefix are parameters with their documented behaviour as laws. -/
namespace Tailnet
open List

inductive Family
  | v4 | v6
  deriving DecidableEq

def Family.octetCount : Family → ℕ
  | .v4 => 4
  | .v6 => 16

structure IpAddr where
  family : Family
  octets : List UInt8
  length_octets : octets.length = family.octetCount
  deriving DecidableEq

/-- The bits of a list of octets, counted from the most significant one. -/
def bitAt (os : List UInt8) (k : ℕ) : Bool := (os.getD (k/8) 0).toNat.testBit (7 - k%8)

namespace IpAddr

def isIpv4 (ip : IpAddr) : Bool := ip.family == .v4

def bit (ip : IpAddr) (k : ℕ) : Bool := bitAt ip.octets k

end IpAddr

/-- A network prefix; the host bits of its address may be set. -/
structure IpNet where
  addr : IpAddr
  prefixLen : ℕ
  prefixLen_le : prefixLen ≤ 8*addr.octets.length
  deriving DecidableEq

/-- The operations of the prefix crate and what its documentation promises. -/
class IpNetOps where
  trunc : IpNet → IpNet
  contains : IpNet → IpAddr → Bool
  trunc_family : ∀ p, (trunc p).addr.family = p.addr.family
  trunc_prefixLen : ∀ p, (trunc p).prefixLen = p.prefixLen
  trunc_bit : ∀ p k, (trunc p).addr.bit k = (decide (k < p.prefixLen) && p.addr.bit k)
  contains_iff : ∀ p ip, contains p ip = true ↔
    p.addr.family = ip.family ∧ ∀ k < p.prefixLen, p.addr.bit k = ip.bit k

/-- Where a prefix is kept in a trie of octets: the whole octets it spans and the
base index of its remaining bits. -/
abbrev RouteKey := List UInt8 × BaseIndex

/-- The key of the first `n` bits of a list of octets. -/
def keyOf (os : List UInt8) (n : ℕ) : RouteKey :=
  (os.take (n/8),.ofBits (os.getD (n/8) 0) ⟨n%8,Nat.mod_lt _ (by decide)⟩)

namespace RouteKey

def bits (k : RouteKey) : ℕ := 8*k.1.length + (k.2.len - 1)

end RouteKey

namespace IpNet

/-- Prefixes longer than the address are refused with a panic. -/
def newAssert (addr : IpAddr) (prefixLen : ℕ) : Result IpNet :=
  if h : prefixLen ≤ 8*addr.octets.length then .ok ⟨addr,prefixLen,h⟩
  else .error .assertion

def host (ip : IpAddr) : IpNet := ⟨ip,8*ip.octets.length,le_rfl⟩

/-- A network of the fourth version, of at most 32 bits. -/
def ofV4 (a b c d : UInt8) (len : ℕ) : IpNet := ⟨⟨.v4,[a,b,c,d],rfl⟩,min len 32,min_le_right _ _⟩

abbrev trunc [IpNetOps] (p : IpNet) : IpNet := IpNetOps.trunc p

abbrev contains [IpNetOps] (p : IpNet) (ip : IpAddr) : Bool := IpNetOps.contains p ip

/-- A prefix whose host bits are zero. -/
def Canonical [IpNetOps] (p : IpNet) : Prop := p.trunc = p

def key (p : IpNet) : RouteKey := keyOf p.addr.octets p.prefixLen

end IpNet

theorem octet_eq_iff {o o' : UInt8} :
    o = o' ↔ ∀ j < 8, o.toNat.testBit (7 - j) = o'.toNat.testBit (7 - j) := by
  constructor
  · rintro rfl
    simp
  · intro h
    apply UInt8.toNat_inj.mp
    apply Nat.eq_of_testBit_eq
    intro i
    by_cases hi : i < 8
    · have := h (7 - i) (by omega)
      rwa [show 7 - (7 - i) = i by omega] at this
    · have hp : 2^8 ≤ 2^i := Nat.pow_le_pow_right (by omega) (by omega)
      rw [Nat.testBit_lt_two_pow (lt_of_lt_of_le o.toNat_lt hp),
        Nat.testBit_lt_two_pow (lt_of_lt_of_le o'.toNat_lt hp)]

/-- The first `l` bits of two octets agree when the octets agree after the shift. -/
theorem octet_div_eq_iff {o o' : UInt8} {l : ℕ} (hl : l < 8) :
    o.toNat/2^(8 - l) = o'.toNat/2^(8 - l) ↔
      ∀ j < l, o.toNat.testBit (7 - j) = o'.toNat.testBit (7 - j) := by
  constructor
  · intro h j hj
    have := congrArg (fun x => x.testBit (l - 1 - j)) h
    simp only [← Nat.shiftRight_eq_div_pow,Nat.testBit_shiftRight] at this
    rwa [show 8 - l + (l - 1 - j) = 7 - j by omega] at this
  · intro h
    apply Nat.eq_of_testBit_eq
    intro i
    simp only [← Nat.shiftRight_eq_div_pow,Nat.testBit_shiftRight]
    by_cases hi : i < l
    · have := h (l - 1 - i) (by omega)
      rwa [show 7 - (l - 1 - i) = 8 - l + i by omega] at this
    · have hp : 2^8 ≤ 2^(8 - l + i) := Nat.pow_le_pow_right (by omega) (by omega)
      rw [Nat.testBit_lt_two_pow (lt_of_lt_of_le o.toNat_lt hp),
        Nat.testBit_lt_two_pow (lt_of_lt_of_le o'.toNat_lt hp)]

theorem take_eq_iff {os os' : List UInt8} (hlen : os.length = os'.length) {m : ℕ} :
    os.take m = os'.take m ↔ ∀ j < m, os.getD j 0 = os'.getD j 0 := by
  constructor
  · intro h j hj
    have := congrArg (fun l : List UInt8 => l[j]?) h
    simp only [List.getElem?_take,hj,if_true] at this
    simp [getD_eq_getElem?_getD,this]
  · intro h
    apply ext_getElem?
    intro j
    simp only [List.getElem?_take]
    split
    · rename_i hj
      have := h j hj
      by_cases hjl : j < os.length
      · simpa [getD_eq_getElem?_getD,hjl,hlen ▸ hjl] using this
      · simp [hjl,hlen ▸ hjl]
    · rfl

theorem keyOf_eq_iff {os os' : List UInt8} (hlen : os.length = os'.length) {n : ℕ} :
    keyOf os n = keyOf os' n ↔ ∀ k < n, bitAt os k = bitAt os' k := by
  have hl : n%8 < 8 := Nat.mod_lt _ (by decide)
  simp only [keyOf,Prod.mk.injEq,take_eq_iff hlen,BaseIndex.ofBits_inj,true_and,
    octet_div_eq_iff hl,octet_eq_iff]
  constructor
  · rintro ⟨hw,hr⟩ k hk
    rcases Nat.lt_or_ge (k/8) (n/8) with h | h
    · exact hw _ h _ (Nat.mod_lt _ (by decide))
    · have he : k/8 = n/8 := by omega
      rw [bitAt,bitAt,he]
      exact hr _ (by omega)
  · intro h
    constructor
    · intro j hj i hi
      have := h (8*j+i) (by omega)
      rwa [bitAt,bitAt,show (8*j+i)/8 = j by omega,show (8*j+i)%8 = i by omega] at this
    · intro i hi
      have := h (8*(n/8)+i) (by omega)
      rwa [bitAt,bitAt,show (8*(n/8)+i)/8 = n/8 by omega,
        show (8*(n/8)+i)%8 = i by omega] at this

theorem keyOf_bits {os : List UInt8} {n : ℕ} (h : n ≤ 8*os.length) : (keyOf os n).bits = n := by
  simp only [RouteKey.bits,keyOf,length_take,BaseIndex.len_ofBits]
  omega

theorem IpAddr.ext_bit {a b : IpAddr} (hf : a.family = b.family)
    (h : ∀ k, a.bit k = b.bit k) : a = b := by
  have hlen : a.octets.length = b.octets.length := by
    rw [a.length_octets,b.length_octets,hf]
  have hk := (keyOf_eq_iff hlen (n := 8*a.octets.length)).mpr (fun k _ => h k)
  have ho : a.octets = b.octets := by
    have := congrArg Prod.fst hk
    rw [keyOf,keyOf,Nat.mul_div_cancel_left _ (by decide)] at this
    rwa [take_length,hlen,take_length] at this
  cases a
  cases b
  cases hf
  cases ho
  rfl

namespace IpNet

theorem ext {p q : IpNet} (ha : p.addr = q.addr) (hl : p.prefixLen = q.prefixLen) : p = q := by
  cases p
  cases q
  cases ha
  cases hl
  rfl

theorem key_bits (p : IpNet) : p.key.bits = p.prefixLen := keyOf_bits p.prefixLen_le

variable [IpNetOps]

@[simp] theorem trunc_family (p : IpNet) : p.trunc.addr.family = p.addr.family :=
  IpNetOps.trunc_family p

@[simp] theorem trunc_prefixLen (p : IpNet) : p.trunc.prefixLen = p.prefixLen :=
  IpNetOps.trunc_prefixLen p

theorem length_trunc (p : IpNet) : p.trunc.addr.octets.length = p.addr.octets.length := by
  rw [p.trunc.addr.length_octets,p.addr.length_octets,trunc_family]

theorem canonical_iff {p : IpNet} : p.Canonical ↔ ∀ k, p.prefixLen ≤ k → p.addr.bit k = false := by
  constructor
  · intro h k hk
    have hb := IpNetOps.trunc_bit p k
    rw [show IpNetOps.trunc p = p from h] at hb
    rw [hb]
    simp [hk]
  · intro h
    apply ext _ (trunc_prefixLen p)
    apply IpAddr.ext_bit (trunc_family p)
    intro k
    rw [IpNetOps.trunc_bit]
    rcases Nat.lt_or_ge k p.prefixLen with hk | hk
    · simp [hk]
    · simp [h k hk]

theorem trunc_canonical (p : IpNet) : p.trunc.Canonical := by
  rw [canonical_iff]
  intro k hk
  rw [trunc_prefixLen] at hk
  rw [IpNetOps.trunc_bit]
  simp [hk]

@[simp] theorem trunc_key (p : IpNet) : p.trunc.key = p.key := by
  rw [key,key,trunc_prefixLen,keyOf_eq_iff p.length_trunc]
  intro k hk
  rw [← IpAddr.bit,← IpAddr.bit,IpNetOps.trunc_bit]
  simp [hk]

theorem Canonical.ext {p q : IpNet} (hp : p.Canonical) (hq : q.Canonical)
    (hf : p.addr.family = q.addr.family) (hk : p.key = q.key) : p = q := by
  have hl : p.prefixLen = q.prefixLen := by
    rw [← key_bits,← key_bits,hk]
  apply IpNet.ext _ hl
  apply IpAddr.ext_bit hf
  have hlen : p.addr.octets.length = q.addr.octets.length := by
    rw [p.addr.length_octets,q.addr.length_octets,hf]
  rw [key,key,hl,keyOf_eq_iff hlen] at hk
  intro k
  rcases Nat.lt_or_ge k p.prefixLen with h | h
  · exact hk k (hl ▸ h)
  · rw [canonical_iff.mp hp k h,canonical_iff.mp hq k (hl ▸ h)]

theorem trunc_eq_iff {p q : IpNet} :
    p.trunc = q.trunc ↔ p.addr.family = q.addr.family ∧ p.key = q.key := by
  constructor
  · intro h
    rw [← trunc_family p,← trunc_key p,h]
    simp
  · rintro ⟨hf,hk⟩
    exact p.trunc_canonical.ext q.trunc_canonical (by simpa using hf) (by simpa using hk)

theorem contains_trunc (p : IpNet) (ip : IpAddr) : p.trunc.contains ip = p.contains ip := by
  rw [Bool.eq_iff_iff,IpNetOps.contains_iff,IpNetOps.contains_iff,p.trunc_family,p.trunc_prefixLen]
  refine and_congr_right fun _ => forall₂_congr fun k hk => ?_
  rw [IpNetOps.trunc_bit]
  simp [hk]

theorem contains_iff {p : IpNet} {ip : IpAddr} : p.contains ip = true ↔
    p.addr.family = ip.family ∧ p.key = keyOf ip.octets p.prefixLen := by
  rw [contains,IpNetOps.contains_iff]
  constructor
  · rintro ⟨hf,h⟩
    refine ⟨hf,(keyOf_eq_iff ?_).mpr h⟩
    rw [p.addr.length_octets,ip.length_octets,hf]
  · rintro ⟨hf,h⟩
    refine ⟨hf,(keyOf_eq_iff ?_).mp h⟩
    rw [p.addr.length_octets,ip.length_octets,hf]

end IpNet

def netMask (bits : ℕ) : UInt8 := UInt8.ofNat (255*2^(8 - bits))

/-- Clear all bits from the `n`-th on. -/
def maskOctets : ℕ → List UInt8 → List UInt8
  | _,[] => []
  | n,o::os => (o &&& netMask (min n 8))::maskOctets (n - 8) os

theorem length_maskOctets (n : ℕ) (os : List UInt8) : (maskOctets n os).length = os.length := by
  induction os generalizing n with
  | nil => rfl
  | cons o os ih => simp [maskOctets,ih]

theorem testBit_netMask {n j : ℕ} (hn : n ≤ 8) (hj : j < 8) :
    (netMask n).toNat.testBit (7 - j) = decide (j < n) := by
  interval_cases n <;> interval_cases j <;> rfl

theorem bitAt_cons (o : UInt8) (os : List UInt8) (k : ℕ) :
    bitAt (o::os) k = if k < 8 then o.toNat.testBit (7 - k) else bitAt os (k - 8) := by
  rw [bitAt,bitAt]
  split
  · rename_i h
    rw [Nat.div_eq_of_lt h,Nat.mod_eq_of_lt h]
    rfl
  · rename_i h
    rw [show k/8 = (k - 8)/8 + 1 by omega,show k%8 = (k - 8)%8 by omega]
    rfl

theorem bitAt_maskOctets (n : ℕ) (os : List UInt8) (k : ℕ) :
    bitAt (maskOctets n os) k = (decide (k < n) && bitAt os k) := by
  induction os generalizing n k with
  | nil => simp [maskOctets,bitAt]
  | cons o os ih =>
    rw [maskOctets,bitAt_cons,bitAt_cons]
    split
    · rename_i h
      rw [UInt8.toNat_and,Nat.testBit_and,testBit_netMask (Nat.min_le_right _ _) h,Bool.and_comm]
      congr 1
      simp [h]
    · rename_i h
      rw [ih]
      congr 1
      simp only [decide_eq_decide]
      omega

/-- The operations computed octet by octet. -/
@[reducible] def maskOps : IpNetOps where
  trunc p := ⟨⟨p.addr.family,maskOctets p.prefixLen p.addr.octets,by
    rw [length_maskOctets,p.addr.length_octets]⟩,p.prefixLen,by
    rw [length_maskOctets]
    exact p.prefixLen_le⟩
  contains p ip := p.addr.family == ip.family &&
    maskOctets p.prefixLen p.addr.octets == maskOctets p.prefixLen ip.octets
  trunc_family _ := rfl
  trunc_prefixLen _ := rfl
  trunc_bit p k := bitAt_maskOctets _ _ _
  contains_iff p ip := by
    simp only [Bool.and_eq_true,beq_iff_eq]
    refine and_congr_right fun hf => ?_
    have hlen : p.addr.octets.length = ip.octets.length := by
      rw [p.addr.length_octets,ip.length_octets,hf]
    constructor
    · intro h k hk
      have := congrArg (fun os => bitAt os k) h
      simpa [bitAt_maskOctets,hk,IpAddr.bit] using this
    · intro h
      have hb : ∀ k, bitAt (maskOctets p.prefixLen p.addr.octets) k =
          bitAt (maskOctets p.prefixLen ip.octets) k := by
        intro k
        rw [bitAt_maskOctets,bitAt_maskOctets]
        by_cases hk : k < p.prefixLen
        · simp only [hk,decide_true,Bool.true_and]
          exact h k hk
        · simp [hk]
      have hk := (keyOf_eq_iff (by rw [length_maskOctets,length_maskOctets,hlen])
        (n := 8*p.addr.octets.length)).mpr (fun k _ => hb k)
      have ht := congrArg Prod.fst hk
      rw [keyOf,keyOf,Nat.mul_div_cancel_left _ (by decide)] at ht
      rwa [take_of_length_le (by rw [length_maskOctets]),
        take_of_length_le (by rw [length_maskOctets,hlen])] at ht

end Tailnet
