import Tailnet.Lib.Bytes
import Tailnet.Lib.Result

/-! Carrier obfuscation of datagrams: a header like that of a QUIC packet, or base64. What one
end wraps, the other end unwraps. -/
namespace Tailnet.Shadowvpn
open List

abbrev Rng := Stream' UInt8

def fill (n : ℕ) (rng : Rng) : List UInt8 × Rng := (rng.take n,rng.drop n)

@[simp] theorem length_fill (n : ℕ) (rng : Rng) : (fill n rng).1.length = n := Stream'.length_take n rng

def defaultDcidLen : ℕ := 8

def pnLen : ℕ := 2

structure QuicObfs where
  dcid : List UInt8
  dcidLen : ℕ
  pn : UInt32
  length_dcid : dcid.length = dcidLen

namespace QuicObfs

def new (dcidLen : ℕ) (rng : Rng) : QuicObfs × Rng :=
  (⟨(fill dcidLen rng).1,dcidLen,UInt32.ofNat (Bytes.ofBe (fill 4 (rng.drop dcidLen)).1),
    length_fill dcidLen rng⟩,(fill 4 (rng.drop dcidLen)).2)

/-- Prepend the header to a datagram. The packet number is the next one. -/
def wrap (q : QuicObfs) (datagram : List UInt8) (rng : Rng) : Result (List UInt8 × QuicObfs × Rng) := do
  let (rnd,rng) := fill 1 rng
  let first : UInt8 := 0x40 ||| (rnd.getD 0 0 &&& 0x3C) ||| ((UInt8.ofNat pnLen - 1) &&& 0x03)
  let pn ← Result.sliceFrom (Bytes.be 4 q.pn.toNat).toList (4 - pnLen)
  return ([first] ++ q.dcid ++ pn ++ datagram,{ q with pn := q.pn+1 },rng)

/-- Strip the header, if it is one. -/
def unwrap (q : QuicObfs) (pkt : List UInt8) : Result (Option (List UInt8)) :=
  match pkt.head? with
  | none => .ok none
  | some first =>
    if first &&& 0x80 ≠ 0 ∨ first &&& 0x40 = 0 then .ok none
    else
      let pnLen := (first &&& 0x03).toNat + 1
      let hdr := 1 + q.dcidLen + pnLen
      if pkt.length < hdr then .ok none
      else do
        let payload ← Result.sliceFrom pkt hdr
        return some payload

end QuicObfs

def b64 : List UInt8 := Bytes.ascii "ABCDEFGHIJKLMNOPQRSTUVWXYZabcdefghijklmnopqrstuvwxyz0123456789+/"

/-- The value of a byte, `0xFF` for the bytes that are not in the alphabet. -/
def b64Rev (c : UInt8) : ℕ := ((b64.findIdx? (· == c)).getD 0xFF)

def padding : UInt8 := 61

/-- The digit at a place of a group of three octets. -/
def digit (n place : ℕ) : UInt8 := b64.getD (n/64^place%64) 0

def base64Encode : List UInt8 → List UInt8
  | [] => []
  | [a] =>
    let n := a.toNat*2^16
    [digit n 3,digit n 2,padding,padding]
  | [a,b] =>
    let n := a.toNat*2^16 + b.toNat*2^8
    [digit n 3,digit n 2,digit n 1,padding]
  | a::b::c::rest =>
    let n := a.toNat*2^16 + b.toNat*2^8 + c.toNat
    [digit n 3,digit n 2,digit n 1,digit n 0] ++ base64Encode rest

/-- The loop of the decoder, with the bits that have not been written out. -/
def base64DecodeLoop (buf bits : ℕ) : List UInt8 → Option (List UInt8)
  | [] => some []
  | c::input =>
    if c = padding then some []
    else
      let v := b64Rev c
      if v = 0xFF then none
      else
        let buf := (buf*2^6 + v)%2^32
        let bits := bits + 6
        if bits ≥ 8 then do
          let out ← base64DecodeLoop buf (bits - 8) input
          return UInt8.ofNat (buf/2^(bits - 8))::out
        else base64DecodeLoop buf bits input

def base64Decode (input : List UInt8) : Option (List UInt8) := base64DecodeLoop 0 0 input

inductive Obfuscator
  | none
  | quic (q : QuicObfs)
  | base64

namespace Obfuscator

def fromName (name : String) (rng : Rng) : Obfuscator × Rng :=
  match name with
  | "quic" => ((QuicObfs.new defaultDcidLen rng).map quic id)
  | "base64" => (base64,rng)
  | _ => (none,rng)

def wrap (datagram : List UInt8) (rng : Rng) : Obfuscator → Result (List UInt8 × Obfuscator × Rng)
  | none => .ok (datagram,none,rng)
  | quic q => do
    let (wire,q,rng) ← q.wrap datagram rng
    return (wire,quic q,rng)
  | base64 => .ok (base64Encode datagram,base64,rng)

def unwrap (pkt : List UInt8) : Obfuscator → Result (Option (List UInt8))
  | none => .ok (some pkt)
  | quic q => q.unwrap pkt
  | base64 => .ok (base64Decode pkt)

/-- Both ends have selected the same obfuscation. -/
def Agree : Obfuscator → Obfuscator → Prop
  | none,none => True
  | quic q,quic q' => q.dcidLen = q'.dcidLen
  | base64,base64 => True
  | _,_ => False

theorem agree_refl (o : Obfuscator) : o.Agree o := by
  cases o with
  | quic q => exact rfl
  | _ => trivial

end Obfuscator

section RoundTrip
variable {n m place buf bits : ℕ} {input : List UInt8}

theorem b64Rev_b64 (v : Fin 64) : b64Rev (b64.getD v 0) = v := by
  revert v
  decide +kernel

theorem b64_ne_padding (v : Fin 64) : b64.getD v 0 ≠ padding := by
  revert v
  decide +kernel

theorem b64Rev_digit (n place : ℕ) : b64Rev (digit n place) = n/64^place%64 :=
  b64Rev_b64 ⟨n/64^place%64,Nat.mod_lt _ (by decide)⟩

theorem digit_ne_padding (n place : ℕ) : digit n place ≠ padding :=
  b64_ne_padding ⟨n/64^place%64,Nat.mod_lt _ (by decide)⟩

theorem base64DecodeLoop_padding : base64DecodeLoop buf bits (padding::input) = some [] := if_pos rfl

theorem base64DecodeLoop_digit (h : bits < 2) :
    base64DecodeLoop buf bits (digit n place::input) =
      base64DecodeLoop ((buf*2^6 + n/64^place%64)%2^32) (bits+6) input := by
  have hv : n/64^place%64 ≠ 0xFF := by
    have := Nat.mod_lt (n/64^place) (show 0 < 64 by decide)
    omega
  rw [base64DecodeLoop,if_neg (digit_ne_padding n place),b64Rev_digit]
  simp only [if_neg hv]
  rw [if_neg (by omega)]

theorem base64DecodeLoop_digit_out (h : 2 ≤ bits) :
    base64DecodeLoop buf bits (digit n place::input) =
      (base64DecodeLoop ((buf*2^6 + n/64^place%64)%2^32) (bits - 2) input).map
        (UInt8.ofNat ((buf*2^6 + n/64^place%64)%2^32/2^(bits - 2))::·) := by
  have hv : n/64^place%64 ≠ 0xFF := by
    have := Nat.mod_lt (n/64^place) (show 0 < 64 by decide)
    omega
  have hbits : bits + 6 - 8 = bits - 2 := by omega
  rw [base64DecodeLoop,if_neg (digit_ne_padding n place),b64Rev_digit]
  simp only [if_neg hv]
  rw [if_pos (by omega),hbits,Option.map_eq_bind]
  rfl

theorem ofNat_eq_of_mod {a : UInt8} (h : n%256 = a.toNat) : UInt8.ofNat n = a := by
  apply UInt8.toNat_inj.mp
  rw [UInt8.toNat_ofNat']
  exact h

/-- Decoding takes back what encoding made, whatever the buffer holds of earlier groups. -/
theorem base64DecodeLoop_encode (data : List UInt8) (buf : ℕ) :
    base64DecodeLoop buf 0 (base64Encode data) = some data := by
  induction data using base64Encode.induct generalizing buf with
  | case1 => rfl
  | case2 a =>
    have ha := a.toNat_lt
    rw [base64Encode,base64DecodeLoop_digit (by omega),base64DecodeLoop_digit_out (by omega),
      base64DecodeLoop_padding]
    simp only [Option.map_some]
    rw [ofNat_eq_of_mod (a := a) (by omega)]
  | case3 a b =>
    have ha := a.toNat_lt
    have hb := b.toNat_lt
    rw [base64Encode,base64DecodeLoop_digit (by omega),base64DecodeLoop_digit_out (by omega),
      base64DecodeLoop_digit_out (by omega),base64DecodeLoop_padding]
    simp only [Option.map_some]
    rw [ofNat_eq_of_mod (a := a) (by omega),ofNat_eq_of_mod (a := b) (by omega)]
  | case4 a b c rest ih =>
    have ha := a.toNat_lt
    have hb := b.toNat_lt
    have hc := c.toNat_lt
    rw [base64Encode]
    simp only [cons_append,nil_append]
    rw [base64DecodeLoop_digit (by omega),base64DecodeLoop_digit_out (by omega),
      base64DecodeLoop_digit_out (by omega),base64DecodeLoop_digit_out (by omega)]
    simp only [Nat.reduceAdd,Nat.reduceSub]
    rw [ih]
    simp only [Option.map_some]
    rw [ofNat_eq_of_mod (a := a) (by omega),ofNat_eq_of_mod (a := b) (by omega),
      ofNat_eq_of_mod (a := c) (by omega)]

/-- The first byte of a header has the form of a short one, with two octets of packet
number. -/
theorem first_byte (rnd : UInt8) :
    let first : UInt8 := 0x40 ||| (rnd &&& 0x3C) ||| ((UInt8.ofNat pnLen - 1) &&& 0x03)
    ¬ (first &&& 0x80 ≠ 0 ∨ first &&& 0x40 = 0) ∧ (first &&& 0x03).toNat + 1 = pnLen := by
  have h : ∀ n : Fin 256,
      let first : UInt8 := 0x40 ||| (UInt8.ofNat n &&& 0x3C) ||| ((UInt8.ofNat pnLen - 1) &&& 0x03)
      ¬ (first &&& 0x80 ≠ 0 ∨ first &&& 0x40 = 0) ∧ (first &&& 0x03).toNat + 1 = pnLen := by
    decide +kernel
  have hrnd := h ⟨rnd.toNat,rnd.toNat_lt⟩
  rwa [UInt8.ofNat_toNat] at hrnd

theorem QuicObfs.unwrap_header {q : QuicObfs} {first : UInt8} {rest datagram : List UInt8}
    (hform : ¬ (first &&& 0x80 ≠ 0 ∨ first &&& 0x40 = 0))
    (hrest : rest.length = q.dcidLen + ((first &&& 0x03).toNat + 1)) :
    q.unwrap (first::(rest ++ datagram)) = .ok (some datagram) := by
  have hhdr : 1 + q.dcidLen + ((first &&& 0x03).toNat + 1) = (first::rest).length := by
    rw [length_cons,hrest]
    omega
  rw [unwrap,List.head?_cons]
  simp only [if_neg hform,hhdr]
  rw [← cons_append,if_neg (by simp),Result.sliceFrom_of_le (by simp),drop_left]
  rfl

theorem QuicObfs.wrap_spec {q q' : QuicObfs} (h : q.dcidLen = q'.dcidLen) (datagram : List UInt8)
    (rng : Rng) : ∃ wire q1 rng1, q.wrap datagram rng = .ok (wire,q1,rng1) ∧ q1.dcidLen = q'.dcidLen ∧
      q'.unwrap wire = .ok (some datagram) := by
  obtain ⟨hform,hpn⟩ := first_byte ((fill 1 rng).1.getD 0 0)
  let pn := (Bytes.be 4 q.pn.toNat).toList.drop (4 - pnLen)
  have hslice : Result.sliceFrom (Bytes.be 4 q.pn.toNat).toList (4 - pnLen) = .ok pn :=
    Result.sliceFrom_of_le (by rw [List.Vector.toList_length]; decide)
  have hrest : (q.dcid ++ pn).length = q'.dcidLen + pnLen := by
    rw [length_append,q.length_dcid,h,length_drop,List.Vector.toList_length]
    rfl
  refine ⟨_,{ q with pn := q.pn+1 },_,by rw [wrap]; simp only [hslice]; rfl,h,?_⟩
  exact unwrap_header hform (hrest.trans (congrArg (q'.dcidLen + ·) hpn.symm))

theorem Obfuscator.unwrap_ok (o : Obfuscator) (pkt : List UInt8) : ∃ r, o.unwrap pkt = .ok r := by
  cases o with
  | none => exact ⟨_,rfl⟩
  | base64 => exact ⟨_,rfl⟩
  | quic q =>
    change ∃ r, q.unwrap pkt = .ok r
    rw [QuicObfs.unwrap]
    cases pkt.head? with
    | none => exact ⟨_,rfl⟩
    | some first =>
      simp only
      split
      · exact ⟨_,rfl⟩
      · split
        · exact ⟨_,rfl⟩
        · rename_i hlen
          rw [Result.sliceFrom_of_le (not_lt.mp hlen)]
          exact ⟨_,rfl⟩

/-- What one end wraps, the other end unwraps; the choice of the obfuscation stays. -/
theorem Obfuscator.wrap_spec {o o' : Obfuscator} (h : o.Agree o') (datagram : List UInt8) (rng : Rng) :
    ∃ wire o1 rng1, o.wrap datagram rng = .ok (wire,o1,rng1) ∧ o1.Agree o' ∧
      o'.unwrap wire = .ok (some datagram) := by
  cases o with
  | none =>
    cases o' with
    | none => exact ⟨_,_,_,rfl,trivial,rfl⟩
    | quic q' => exact h.elim
    | base64 => exact h.elim
  | quic q =>
    cases o' with
    | none => exact h.elim
    | quic q' =>
      obtain ⟨wire,q1,rng1,hwrap,hlen,hunwrap⟩ := QuicObfs.wrap_spec h datagram rng
      exact ⟨wire,quic q1,rng1,by rw [wrap,hwrap]; rfl,hlen,hunwrap⟩
    | base64 => exact h.elim
  | base64 =>
    cases o' with
    | none => exact h.elim
    | quic q' => exact h.elim
    | base64 => exact ⟨_,_,_,rfl,trivial,congrArg Except.ok (base64DecodeLoop_encode datagram 0)⟩

end RoundTrip
end Tailnet.Shadowvpn
