import Tailnet.Lib.Framing
import Tailnet.Noise.Handshake

/-! The codec of the control protocol. A byte string is cut into chunks, and each chunk is sealed in a
record with a header of three bytes; both ends count records, and the counter is the nonce. -/
namespace Tailnet.ControlNoise
open List Result

inductive MessageType
  | initiation
  | response
  | error
  | record
  deriving DecidableEq, Repr

namespace MessageType

def toByte : MessageType → UInt8
  | initiation => 1
  | response => 2
  | error => 3
  | record => 4

def ofByte (b : UInt8) : Option MessageType :=
  if b = 1 then some initiation
  else if b = 2 then some response
  else if b = 3 then some error
  else if b = 4 then some record
  else none

@[simp] theorem ofByte_toByte (t : MessageType) : ofByte t.toByte = some t := by
  cases t <;> decide

end MessageType

structure Header where
  typ : MessageType
  len : ℕ
  deriving DecidableEq, Repr

namespace Header

def size : ℕ := 3

def asBytes (h : Header) : List UInt8 := h.typ.toByte::(Bytes.be 2 h.len).toList

inductive CastError
  | size
  | validity

/-- `try_ref_from_prefix`: the size is checked before the type. -/
def tryRefFromPrefix : List UInt8 → Except CastError (Header × List UInt8)
  | t::b₁::b₀::rest =>
    match MessageType.ofByte t with
    | some typ => .ok (⟨typ,Bytes.ofBe [b₁,b₀]⟩,rest)
    | none => .error .validity
  | _ => .error .size

@[simp] theorem length_asBytes (h : Header) : h.asBytes.length = size := by
  simp [asBytes,size]

theorem tryRefFromPrefix_of_length {src : List UInt8} (h : src.length < size) :
    tryRefFromPrefix src = .error .size := by
  match src with
  | [] | [_] | [_,_] => rfl
  | _::_::_::l =>
    simp only [length_cons,size] at h
    omega

theorem tryRefFromPrefix_asBytes {h : Header} (hlen : h.len < 2^16) (rest : List UInt8) :
    tryRefFromPrefix (h.asBytes ++ rest) = .ok (h,rest) := by
  have hbe : Bytes.ofBe (Bytes.be 2 h.len).toList = h.len := Bytes.ofBe_be_of_lt (by omega)
  obtain ⟨b₁,b₀,hb⟩ := length_eq_two.mp (List.Vector.toList_length (Bytes.be 2 h.len))
  rw [hb] at hbe
  simp [asBytes,hb,tryRefFromPrefix,hbe]

theorem eq_of_tryRefFromPrefix {src rest : List UInt8} {h : Header}
    (hread : tryRefFromPrefix src = .ok (h,rest)) : rest = src.drop size ∧ size ≤ src.length := by
  match src with
  | [] | [_] | [_,_] => cases hread
  | t::b₁::b₀::l =>
    rw [tryRefFromPrefix] at hread
    split at hread
    · cases hread
      exact ⟨rfl,by simp [size]⟩
    · cases hread

end Header

def maxMessageSize : ℕ := 4096

def aeadOverhead : ℕ := 16

def maxChunkSize : ℕ := maxMessageSize - Header.size - aeadOverhead

inductive ErrorKind
  | invalidData
  deriving DecidableEq, Repr

/-- One end of the protocol, with the number of its next record. -/
structure Codec where
  key : Bytes 32
  nonce : ℕ

namespace Codec

/-- `u64::MAX`, the number that is never used. -/
def maxNonce : ℕ := 2^64 - 1

def nonceOf (n : ℕ) : Bytes 12 := Bytes.append (List.Vector.replicate 4 0) (Bytes.be 8 n)

def nextNonce (c : Codec) : Result (Bytes 12 × Codec) := do
  Result.assert (c.nonce ≠ maxNonce)
  return (nonceOf c.nonce,{ c with nonce := c.nonce + 1 })

theorem nextNonce_of_lt {c : Codec} (h : c.nonce < maxNonce) :
    c.nextNonce = .ok (nonceOf c.nonce,{ c with nonce := c.nonce + 1 }) := by
  simp [nextNonce,Result.assert,Nat.ne_of_lt h]

section
variable [Aead]

/-- The body of the loop of `encode`. -/
def encodeChunk (s : Codec × List UInt8) (chunk : List UInt8) : Result (Codec × List UInt8) := do
  let len := chunk.length%2^16 + aeadOverhead
  if 2^16 ≤ len then .error .overflow else
  let (nonce,c) ← s.1.nextNonce
  let (body,tag) := Aead.encrypt c.key nonce [] (Bytes.ofList chunk)
  return (c,s.2 ++ Header.asBytes ⟨.record,len⟩ ++ body.toList ++ tag.toList)

def encode (b : List UInt8) (s : Codec × List UInt8) :
    Result (Except ErrorKind Unit × Codec × List UInt8) := do
  let s ← (Framing.chunks maxChunkSize b).foldlM encodeChunk s
  return (.ok (),s)

def tagOf (l : List UInt8) : Result (Bytes 16) :=
  if h : l.length = 16 then .ok ⟨l,h⟩ else .error .assertion

omit [Aead] in
@[simp] theorem tagOf_toList (tag : Bytes 16) : tagOf tag.toList = .ok tag := dif_pos tag.toList_length

def decode : Framing.Decode Codec UInt8 (List UInt8) ErrorKind := fun c src =>
  match Header.tryRefFromPrefix src with
  | .error .size => .ok (.ok none,c,src)
  | .error .validity => .ok (.error .invalidData,c,src)
  | .ok (header,rest) =>
    if rest.length < header.len then .ok (.ok none,c,src)
    else
      let body := rest.take header.len
      let src := rest.drop header.len
      match header.typ with
      | .record => do
        let (nonce,c) ← c.nextNonce
        let (body,tag) ← Result.splitAt body (← Result.sub body.length aeadOverhead)
        let tag ← tagOf tag
        match Aead.decrypt c.key nonce [] (Bytes.ofList body) tag with
        | none => return (.error .invalidData,c,src)
        | some body => return (.ok (some body.toList),c,src)
      | .error => .ok (.ok none,c,src)
      | _ => .ok (.error .invalidData,c,src)

variable {c : Codec} {src : List UInt8}

/-- A whole record is in the buffer, and its announced length has no place for the tag. -/
def ShortRecord (src : List UInt8) : Prop :=
  ∃ header rest, Header.tryRefFromPrefix src = .ok (header,rest) ∧ header.typ = .record ∧
    header.len < aeadOverhead ∧ header.len ≤ rest.length

/-- A decoded body comes off the buffer with its header. -/
def TakesFrame (src : List UInt8) (r : Except ErrorKind (Option (List UInt8))) (src' : List UInt8) : Prop :=
  ∀ body, r = .ok (some body) → ∃ header rest, Header.tryRefFromPrefix src = .ok (header,rest) ∧
    header.len ≤ rest.length ∧ src' = src.drop (Header.size + header.len)

theorem decode_record {header : Header} {body rest : List UInt8} {tag : Bytes 16} (hc : c.nonce < maxNonce)
    (hread : Header.tryRefFromPrefix src = .ok (header,body ++ (tag.toList ++ rest)))
    (htyp : header.typ = .record) (hlen : header.len = body.length + aeadOverhead) :
    c.decode src = .ok (
      match Aead.decrypt c.key (nonceOf c.nonce) [] (Bytes.ofList body) tag with
      | none => .error .invalidData
      | some body => .ok (some body.toList),{ c with nonce := c.nonce + 1 },rest) := by
  have htag : tag.toList.length = aeadOverhead := tag.toList_length
  have hlength : (body ++ tag.toList).length = header.len := by rw [hlen,length_append,htag]
  rw [← append_assoc] at hread
  have hwhole : ¬ (body ++ tag.toList ++ rest).length < header.len := by
    rw [length_append,hlength]
    omega
  have hsub : Result.sub (body ++ tag.toList).length aeadOverhead = .ok body.length := by
    rw [hlength,hlen,sub_of_le (Nat.le_add_left _ _),Nat.add_sub_cancel]
  have hsplit : Result.splitAt (body ++ tag.toList) body.length = .ok (body,tag.toList) := by
    rw [splitAt_of_le (by simp),take_left,drop_left]
  simp only [decode,hread,if_neg hwhole,htyp,take_left' hlength,drop_left' hlength,
    nextNonce_of_lt hc,hsub,hsplit,tagOf_toList,bind_of_ok]
  cases Aead.decrypt c.key (nonceOf c.nonce) [] (Bytes.ofList body) tag <;> rfl

omit [Aead] in
/-- The parts of the buffer after the header of a record. -/
theorem exists_tag {len : ℕ} {rest : List UInt8} (htag : aeadOverhead ≤ len) (hle : len ≤ rest.length) :
    ∃ body, ∃ tag : Bytes 16, ∃ rest', rest = body ++ (tag.toList ++ rest') ∧
      len = body.length + aeadOverhead := by
  have hbody : len - aeadOverhead ≤ rest.length := by omega
  have htaglen : ((rest.drop (len - aeadOverhead)).take 16).length = 16 := by
    rw [aeadOverhead] at *
    rw [length_take,length_drop]
    omega
  refine ⟨rest.take (len - aeadOverhead),⟨_,htaglen⟩,(rest.drop (len - aeadOverhead)).drop 16,?_,?_⟩
  · change rest = _ ++ ((rest.drop (len - aeadOverhead)).take 16 ++ _)
    rw [take_append_drop,take_append_drop]
  · rw [length_take_of_le hbody,Nat.sub_add_cancel htag]

theorem decode_short (hc : c.nonce < maxNonce) (h : ShortRecord src) :
    c.decode src = .error .overflow := by
  obtain ⟨header,rest,hread,htyp,hshort,hlen⟩ := h
  have hbody : (rest.take header.len).length = header.len := length_take_of_le hlen
  simp only [decode,hread,if_neg (Nat.not_lt.mpr hlen),htyp,nextNonce_of_lt hc,hbody,Result.sub,
    if_neg (Nat.not_le.mpr hshort),bind_of_ok]
  rfl

/-- The decoder returns, and takes a whole frame for a body, on exactly those buffers that do not start
with a record without a tag. -/
theorem decode_total_iff (hc : c.nonce < maxNonce) (src : List UInt8) :
    (∃ r c' src', c.decode src = .ok (r,c',src') ∧ TakesFrame src r src') ↔ ¬ ShortRecord src := by
  constructor
  · rintro ⟨r,c',src',hdecode,-⟩ hshort
    rw [decode_short hc hshort] at hdecode
    cases hdecode
  · intro hshort
    cases hread : Header.tryRefFromPrefix src with
    | error e =>
      cases e with
      | size => exact ⟨.ok none,c,src,by simp [decode,hread],fun body hbody => by cases hbody⟩
      | validity =>
        exact ⟨.error .invalidData,c,src,by simp [decode,hread],fun body hbody => by cases hbody⟩
    | ok p =>
      obtain ⟨header,rest⟩ := p
      obtain ⟨hrest,-⟩ := Header.eq_of_tryRefFromPrefix hread
      by_cases hlen : rest.length < header.len
      · exact ⟨.ok none,c,src,by simp [decode,hread,hlen],fun body hbody => by cases hbody⟩
      · have hle : header.len ≤ rest.length := Nat.not_lt.mp hlen
        cases htyp : header.typ with
        | record =>
          have htag : aeadOverhead ≤ header.len :=
            Nat.not_lt.mp fun hlt => hshort ⟨header,rest,hread,htyp,hlt,hle⟩
          obtain ⟨body,tag,rest',hsplit,hlen'⟩ := exists_tag htag hle
          rw [hsplit] at hread
          refine ⟨_,_,rest',decode_record hc hread htyp hlen',fun _ _ => ⟨header,_,hread,hsplit ▸ hle,?_⟩⟩
          rw [← drop_drop,← hrest,hsplit,hlen',← append_assoc]
          exact (drop_left' (by simp [aeadOverhead])).symm
        | error =>
          exact ⟨.ok none,c,rest.drop header.len,by simp [decode,hread,hlen,htyp],
            fun body hbody => by cases hbody⟩
        | initiation | response =>
          exact ⟨.error .invalidData,c,rest.drop header.len,by simp [decode,hread,hlen,htyp],
            fun body hbody => by cases hbody⟩

def record (c : Codec) (chunk : List UInt8) : List UInt8 :=
  let sealed := Aead.encrypt c.key (nonceOf c.nonce) [] (Bytes.ofList chunk)
  Header.asBytes ⟨.record,chunk.length + aeadOverhead⟩ ++ (sealed.1.toList ++ sealed.2.toList)

theorem encodeChunk_eq {dst chunk : List UInt8} (hc : c.nonce < maxNonce) (hlen : chunk.length ≤ maxChunkSize) :
    encodeChunk (c,dst) chunk = .ok ({ c with nonce := c.nonce + 1 },dst ++ c.record chunk) := by
  have hsmall : chunk.length ≤ 4077 := hlen
  have hmod : chunk.length%2^16 = chunk.length := Nat.mod_eq_of_lt (by omega)
  have hfits : ¬ 2^16 ≤ chunk.length + aeadOverhead := by
    rw [aeadOverhead]
    omega
  simp only [encodeChunk,hmod,if_neg hfits,nextNonce_of_lt hc,record,bind_of_ok,append_assoc]
  rfl

/-- A part of a record has no whole header, or less than the announced length after it. -/
theorem decode_part {header : Header} {body p q : List UInt8} (hfits : header.len < 2^16)
    (hbody : body.length = header.len) (hq : q ≠ []) (hpq : header.asBytes ++ body = p ++ q) :
    c.decode p = .ok (.ok none,c,p) := by
  have hpos : 0 < q.length := length_pos_of_ne_nil hq
  by_cases hsize : p.length < Header.size
  · simp [decode,Header.tryRefFromPrefix_of_length hsize]
  · rcases append_eq_append_iff.mp hpq with ⟨p',hp',hrest⟩ | ⟨q',hheader,hq'⟩
    · have hshort : p'.length < header.len := by
        rw [← hbody,hrest,length_append]
        omega
      rw [hp']
      simp [decode,Header.tryRefFromPrefix_asBytes hfits,hshort]
    · -- the part is the header
      have hnil : q' = [] := by
        have hlen := congrArg List.length hheader
        rw [Header.length_asBytes,length_append] at hlen
        exact eq_nil_of_length_eq_zero (by omega)
      subst hnil
      rw [append_nil] at hheader
      rw [nil_append] at hq'
      have hshort : 0 < header.len := by rwa [← hbody,← hq']
      have hread := Header.tryRefFromPrefix_asBytes hfits []
      rw [append_nil,hheader] at hread
      simp [decode,hread,hshort]

/-- A body is opened as a list as it is at its own length. -/
theorem decrypt_toList {n : ℕ} (key : Bytes 32) (nonce : Bytes 12) (body : Bytes n) (tag : Bytes 16) :
    (Aead.decrypt key nonce [] (Bytes.ofList body.toList) tag).map List.Vector.toList =
      (Aead.decrypt key nonce [] body tag).map List.Vector.toList := by
  obtain ⟨l,rfl⟩ := body
  rfl

theorem isFrame_record (haead : Aead.OpensSealed) {chunk : List UInt8} (hc : c.nonce < maxNonce)
    (hlen : chunk.length ≤ maxChunkSize) :
    Framing.IsFrame decode c (c.record chunk) chunk { c with nonce := c.nonce + 1 } := by
  have hsmall : chunk.length ≤ 4077 := hlen
  have hfits : chunk.length + aeadOverhead < 2^16 := by
    rw [aeadOverhead]
    omega
  constructor
  · intro rest
    have hread : Header.tryRefFromPrefix (c.record chunk ++ rest) = .ok (⟨.record,chunk.length + aeadOverhead⟩,
        (Aead.encrypt c.key (nonceOf c.nonce) [] (Bytes.ofList chunk)).1.toList ++
          ((Aead.encrypt c.key (nonceOf c.nonce) [] (Bytes.ofList chunk)).2.toList ++ rest)) := by
      rw [record,append_assoc,append_assoc]
      exact Header.tryRefFromPrefix_asBytes hfits _
    have hopen := decrypt_toList c.key (nonceOf c.nonce)
      (Aead.encrypt c.key (nonceOf c.nonce) [] (Bytes.ofList chunk)).1
      (Aead.encrypt c.key (nonceOf c.nonce) [] (Bytes.ofList chunk)).2
    rw [haead,Option.map_some,Option.map_eq_some_iff] at hopen
    obtain ⟨body,hbody,hchunk⟩ := hopen
    rw [decode_record hc hread rfl (by simp),hbody]
    change Except.ok (Except.ok (some body.toList),_,rest) = _
    rw [hchunk]
    rfl
  · intro p q hq hpq
    exact decode_part hfits (by simp [aeadOverhead]) hq hpq

theorem foldlM_encodeChunk (haead : Aead.OpensSealed) (c : Codec) (dst : List UInt8) {cs : List (List UInt8)}
    (hlen : ∀ chunk ∈ cs, chunk.length ≤ maxChunkSize) (hc : c.nonce + cs.length ≤ maxNonce) :
    ∃ wire, cs.foldlM encodeChunk (c,dst) = .ok ({ c with nonce := c.nonce + cs.length },dst ++ wire) ∧
      Framing.Carries decode c cs wire := by
  induction cs generalizing c dst with
  | nil => exact ⟨[],by simp [pure,Except.pure],.nil rfl⟩
  | cons chunk cs ih =>
    rw [length_cons] at hc
    have hlt : c.nonce < maxNonce := by omega
    have hchunk := hlen chunk mem_cons_self
    obtain ⟨wire,hwire,hcarries⟩ := ih { c with nonce := c.nonce + 1 } (dst ++ c.record chunk)
      (fun chunk h => hlen chunk (mem_cons_of_mem _ h)) (by rw [Nat.add_right_comm]; exact hc)
    refine ⟨c.record chunk ++ wire,?_,.cons (isFrame_record haead hlt hchunk) hcarries⟩
    rw [foldlM_cons,encodeChunk_eq hlt hchunk,bind_of_ok,hwire,append_assoc,
      length_cons,Nat.add_right_comm]
    rfl

theorem runAll_encode (writes : List (List UInt8)) (s : Codec × List UInt8) :
    runAll encode writes s = (fun s => (writes.map fun _ => .ok (),s)) <$>
      (writes.flatMap (Framing.chunks maxChunkSize)).foldlM encodeChunk s := by
  induction writes generalizing s with
  | nil => rfl
  | cons b writes ih =>
    rw [runAll,encode,flatMap_cons,foldlM_append]
    cases (Framing.chunks maxChunkSize b).foldlM encodeChunk s with
    | error p => rfl
    | ok s' =>
      change (runAll encode writes s' >>= _) = _
      rw [ih,bind_of_ok]
      cases (writes.flatMap (Framing.chunks maxChunkSize)).foldlM encodeChunk s' <;> rfl

end

/-- A record of sixteen bytes is refused, as they are not its tag. -/
theorem decode_total_iff_record :
    letI := Noise.sumPrimitives.toAead
    ∃ r c' src', decode ⟨List.Vector.replicate 32 1,0⟩ ([4,0,16] ++ List.replicate 16 9) = .ok (r,c',src') ∧
      TakesFrame ([4,0,16] ++ List.replicate 16 9) r src' :=
  (@decode_total_iff Noise.sumPrimitives.toAead ⟨List.Vector.replicate 32 1,0⟩ (by decide) _).mpr (by
    rintro ⟨header,rest,hread,-,hshort,-⟩
    cases hread
    exact absurd hshort (by decide))

/-- The decoder panics on a record of no bytes. -/
theorem empty_record_panics :
    letI := Noise.sumPrimitives.toAead
    decode ⟨List.Vector.replicate 32 1,0⟩ [4,0,0] = .error .overflow :=
  @decode_short Noise.sumPrimitives.toAead ⟨List.Vector.replicate 32 1,0⟩ _ (by decide)
    ⟨⟨.record,0⟩,[],rfl,rfl,by decide,by decide⟩

end Codec
end Tailnet.ControlNoise
