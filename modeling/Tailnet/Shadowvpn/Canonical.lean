import Tailnet.Shadowvpn.Obfs

/-! Which wire images the base64 carrier accepts. The decoder stops at the first padding and
drops the bits that are left over, so that it accepts more than what the encoder produces: an
accepted image is the encoding of what it decodes to exactly if it is canonical. -/
namespace Tailnet.Shadowvpn

abbrev Symbol (c : UInt8) : Prop := b64Rev c ≠ 0xFF

/-- Groups of four symbols; the last one may be padded, with zeros for the bits that are not
used. -/
def Canonical : List UInt8 → Prop
  | [] => True
  | a::b::c::d::rest => Symbol a ∧ Symbol b ∧
      ((Symbol c ∧ Symbol d ∧ Canonical rest) ∨
        (rest = [] ∧ d = padding ∧
          ((Symbol c ∧ b64Rev c%4 = 0) ∨ (c = padding ∧ b64Rev b%16 = 0))))
  | _ => False

/-- A byte before the padding is not in the alphabet. -/
def Foreign (input : List UInt8) : Prop := ∃ c ∈ input.takeWhile (· ≠ padding), ¬ Symbol c

variable {n place : ℕ} {a b c d : UInt8}

theorem symbol_digit (n place : ℕ) : Symbol (digit n place) := by
  rw [Symbol,b64Rev_digit]
  omega

/-- The value of a symbol, and the symbol of the value. -/
theorem b64_b64Rev (c : UInt8) : Symbol c → b64Rev c < 64 ∧ b64.getD (b64Rev c) 0 = c := by
  have hall : ∀ i : Fin 256, Symbol (UInt8.ofNat i) →
      b64Rev (UInt8.ofNat i) < 64 ∧ b64.getD (b64Rev (UInt8.ofNat i)) 0 = UInt8.ofNat i := by
    decide +kernel
  have hc := hall ⟨c.toNat,c.toNat_lt⟩
  rwa [UInt8.ofNat_toNat] at hc

theorem digit_eq (hc : Symbol c) (h : n/64^place%64 = b64Rev c) : digit n place = c := by
  rw [digit,h]
  exact (b64_b64Rev c hc).2

theorem canonical_encode (data : List UInt8) : Canonical (base64Encode data) := by
  induction data using base64Encode.induct with
  | case1 => trivial
  | case2 a =>
    refine ⟨symbol_digit _ _,symbol_digit _ _,.inr ⟨rfl,rfl,.inr ⟨rfl,?_⟩⟩⟩
    rw [b64Rev_digit]
    omega
  | case3 a b =>
    refine ⟨symbol_digit _ _,symbol_digit _ _,.inr ⟨rfl,rfl,.inl ⟨symbol_digit _ _,?_⟩⟩⟩
    rw [b64Rev_digit]
    omega
  | case4 a b c rest ih =>
    exact ⟨symbol_digit _ _,symbol_digit _ _,.inl ⟨symbol_digit _ _,symbol_digit _ _,ih⟩⟩

/-- A full group of symbols is the encoding of three octets. -/
theorem exists_group (ha : Symbol a) (hb : Symbol b) (hc : Symbol c) (hd : Symbol d)
    (rest : List UInt8) :
    ∃ x y z, base64Encode (x::y::z::rest) = a::b::c::d::base64Encode rest := by
  have hva := (b64_b64Rev a ha).1
  have hvb := (b64_b64Rev b hb).1
  have hvc := (b64_b64Rev c hc).1
  have hvd := (b64_b64Rev d hd).1
  let n := b64Rev a*2^18 + b64Rev b*2^12 + b64Rev c*2^6 + b64Rev d
  refine ⟨UInt8.ofNat (n/2^16),UInt8.ofNat (n/2^8),UInt8.ofNat n,?_⟩
  simp only [base64Encode,UInt8.toNat_ofNat',List.cons_append,List.nil_append]
  rw [digit_eq ha (by omega),digit_eq hb (by omega),digit_eq hc (by omega),digit_eq hd (by omega)]

theorem exists_encode_of_canonical {input : List UInt8} (h : Canonical input) :
    ∃ data, base64Encode data = input := by
  induction input using Canonical.induct with
  | case1 => exact ⟨[],rfl⟩
  | case3 => simp [Canonical] at h
  | case2 a b c d rest ih =>
    obtain ⟨ha,hb,⟨hc,hd,hrest⟩ | ⟨rfl,rfl,⟨hc,hzero⟩ | ⟨rfl,hzero⟩⟩⟩ := h
    · obtain ⟨data,rfl⟩ := ih hrest
      obtain ⟨x,y,z,hgroup⟩ := exists_group ha hb hc hd data
      exact ⟨_,hgroup⟩
    · have hva := (b64_b64Rev a ha).1
      have hvb := (b64_b64Rev b hb).1
      have hvc := (b64_b64Rev c hc).1
      let n := b64Rev a*2^18 + b64Rev b*2^12 + b64Rev c*2^6
      refine ⟨[UInt8.ofNat (n/2^16),UInt8.ofNat (n/2^8)],?_⟩
      simp only [base64Encode,UInt8.toNat_ofNat']
      rw [digit_eq ha (by omega),digit_eq hb (by omega),digit_eq hc (by omega)]
    · have hva := (b64_b64Rev a ha).1
      have hvb := (b64_b64Rev b hb).1
      let n := b64Rev a*2^18 + b64Rev b*2^12
      refine ⟨[UInt8.ofNat (n/2^16)],?_⟩
      simp only [base64Encode,UInt8.toNat_ofNat']
      rw [digit_eq ha (by omega),digit_eq hb (by omega)]

/-- The decoder gives up exactly at a byte that is not in the alphabet. -/
theorem base64DecodeLoop_eq_none {buf bits : ℕ} {input : List UInt8} :
    base64DecodeLoop buf bits input = none ↔ Foreign input := by
  induction input generalizing buf bits with
  | nil => simp [base64DecodeLoop,Foreign]
  | cons c input ih =>
    rw [base64DecodeLoop]
    by_cases hpad : c = padding
    · simp [hpad,Foreign]
    · have hforeign : Foreign (c::input) ↔ ¬ Symbol c ∨ Foreign input := by
        simp [Foreign,hpad]
      rw [if_neg hpad,hforeign]
      by_cases hc : b64Rev c = 0xFF
      · simp [hc]
      · rw [or_iff_right (not_not.mpr hc)]
        dsimp only
        rw [if_neg hc]
        split
        · rw [← @ih ((buf*2^6 + b64Rev c)%2^32) (bits + 6 - 8)]
          cases base64DecodeLoop _ _ input <;> simp
        · exact ih

/-- Decoding takes back every encoding; and what is decoded is the encoding of the result,
exactly if the image has a foreign byte, so that it is rejected, or is canonical. -/
theorem base64_decode_strict_iff (input : List UInt8) :
    ((∀ data, base64Decode input = some data → input = base64Encode data) ∧
      ∀ data, base64Decode (base64Encode data) = some data) ↔
    Foreign input ∨ Canonical input := by
  have hround : ∀ data, base64Decode (base64Encode data) = some data := fun data =>
    base64DecodeLoop_encode data 0
  rw [and_iff_left hround]
  constructor
  · intro h
    cases hdecode : base64Decode input with
    | none => exact .inl (base64DecodeLoop_eq_none.mp hdecode)
    | some data =>
      rw [h data hdecode]
      exact .inr (canonical_encode data)
  · rintro (hforeign | hcanonical) data hdata
    · rw [base64Decode,base64DecodeLoop_eq_none.mpr hforeign] at hdata
      cases hdata
    · obtain ⟨data',rfl⟩ := exists_encode_of_canonical hcanonical
      rw [hround] at hdata
      cases hdata
      rfl

/-- Images without padding, with bits that are not used, with a wrong padding and with data
after the padding are accepted, and are not what the encoder makes of the octet. -/
theorem base64_accepts_other_images :
    let accepted (text : String) := base64Decode (Bytes.ascii text) = some [0x41] ∧
      Bytes.ascii text ≠ base64Encode [0x41]
    accepted "QQ" ∧ accepted "QR==" ∧ accepted "QQ=!" ∧ accepted "QQ==Zm9v" := by
  decide +kernel

end Tailnet.Shadowvpn
