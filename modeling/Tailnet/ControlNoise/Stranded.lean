import Tailnet.ControlNoise.Codec

/-! When the decoder asks for more bytes. An answer without an item makes the framing layer wait for
the other end, so it should only be given on a buffer without a whole frame. The decoder gives
it for an error frame, too, which it takes off the buffer: records behind it are stranded. -/
namespace Tailnet.ControlNoise.Codec

/-- The buffer starts with a whole frame, of the given header. -/
def WholeFrame (src : List UInt8) (header : Header) : Prop :=
  ∃ rest, Header.tryRefFromPrefix src = .ok (header,rest) ∧ header.len ≤ rest.length

inductive Frame
  | record (chunk : List UInt8)
  | error (text : List UInt8)

namespace Frame

/-- The length of the frame fits into its header. -/
def Honest : Frame → Prop
  | record chunk => chunk.length ≤ maxChunkSize
  | error text => text.length < 2^16

def chunk? : Frame → Option (List UInt8)
  | record chunk => some chunk
  | error _ => none

end Frame

def records (frames : List Frame) : List (List UInt8) := frames.filterMap Frame.chunk?

/-- No record is behind an error frame. -/
def ErrorsLast : List Frame → Prop
  | [] => True
  | .record _::frames => ErrorsLast frames
  | .error _::frames => records frames = []

section
variable [Aead]

/-- The frames on the wire, from a sender that counts its records. -/
def wire (c : Codec) : List Frame → List UInt8
  | [] => []
  | .record chunk::frames => c.record chunk ++ wire { c with nonce := c.nonce + 1 } frames
  | .error text::frames => Header.asBytes ⟨.error,text.length⟩ ++ (text ++ wire c frames)

/-- Calls of the decoder return items until one of them returns none. -/
inductive Drains : Codec → List UInt8 → List (List UInt8) → Prop
  | wait {c c' : Codec} {src src' : List UInt8} (h : c.decode src = .ok (.ok none,c',src')) :
    Drains c src []
  | item {c c' : Codec} {src src' item : List UInt8} {items : List (List UInt8)}
    (h : c.decode src = .ok (.ok (some item),c',src')) (rest : Drains c' src' items) :
    Drains c src (item::items)

variable {c c' : Codec} {src src' : List UInt8}

theorem drains_wait_iff (h : c.decode src = .ok (.ok none,c',src')) {items : List (List UInt8)} :
    Drains c src items ↔ items = [] := by
  refine ⟨fun hd => ?_,fun hnil => hnil ▸ .wait h⟩
  cases hd with
  | wait _ => rfl
  | item h' _ =>
    rw [h] at h'
    cases h'

theorem drains_item_iff {item : List UInt8} (h : c.decode src = .ok (.ok (some item),c',src'))
    {items : List (List UInt8)} :
    Drains c src items ↔ ∃ rest, items = item::rest ∧ Drains c' src' rest := by
  constructor
  · intro hd
    cases hd with
    | wait h' =>
      rw [h] at h'
      cases h'
    | item h' hrest =>
      rw [h] at h'
      cases h'
      exact ⟨_,rfl,hrest⟩
  · rintro ⟨rest,rfl,hrest⟩
    exact .item h hrest

/-- The decoder asks for more bytes if there is no whole frame or an error frame. -/
theorem decode_wait_cases (h : c.decode src = .ok (.ok none,c',src')) {header : Header}
    (hwhole : WholeFrame src header) : header.typ = .error := by
  obtain ⟨rest,hread,hlen⟩ := hwhole
  simp only [decode,hread,if_neg (Nat.not_lt.mpr hlen)] at h
  cases htyp : header.typ with
  | error => rfl
  | initiation => simp [htyp] at h
  | response => simp [htyp] at h
  | record =>
    simp only [htyp] at h
    obtain ⟨⟨nonce,c1⟩,-,h⟩ := Result.bind_eq_ok.mp h
    obtain ⟨n,-,h⟩ := Result.bind_eq_ok.mp h
    obtain ⟨⟨body,tag⟩,-,h⟩ := Result.bind_eq_ok.mp h
    obtain ⟨tag,-,h⟩ := Result.bind_eq_ok.mp h
    split at h <;> cases h

theorem decode_error_frame {header : Header} (hwhole : WholeFrame src header)
    (htyp : header.typ = .error) : ∃ src', c.decode src = .ok (.ok none,c,src') := by
  obtain ⟨rest,hread,hlen⟩ := hwhole
  exact ⟨rest.drop header.len,by simp [decode,hread,Nat.not_lt.mpr hlen,htyp]⟩

/-- The decoder is drained of the records up to the first error frame. -/
theorem drains_wire_iff (haead : Aead.OpensSealed) {frames : List Frame} (c : Codec)
    (hhonest : ∀ f ∈ frames, f.Honest) (hc : c.nonce + (records frames).length ≤ maxNonce) :
    Drains c (wire c frames) (records frames) ↔ ErrorsLast frames := by
  induction frames generalizing c with
  | nil => exact iff_of_true (.wait rfl) trivial
  | cons f frames ih =>
    have hrest : ∀ f ∈ frames, f.Honest := fun f hf => hhonest f (List.mem_cons_of_mem _ hf)
    cases f with
    | record chunk =>
      have hrecords : records (.record chunk::frames) = chunk::records frames := rfl
      rw [hrecords,List.length_cons] at hc
      have hframe := isFrame_record haead (show c.nonce < maxNonce by omega)
        (show chunk.length ≤ maxChunkSize from hhonest _ List.mem_cons_self)
      rw [hrecords,wire,drains_item_iff (hframe.whole _),ErrorsLast,
        ← ih { c with nonce := c.nonce + 1 } hrest (by dsimp only; omega)]
      simp
    | error text =>
      have htext : text.length < 2^16 := hhonest _ List.mem_cons_self
      have hwhole : WholeFrame (wire c (.error text::frames)) ⟨.error,text.length⟩ := by
        rw [wire]
        exact ⟨_,Header.tryRefFromPrefix_asBytes htext _,by simp⟩
      obtain ⟨src',hdecode⟩ := decode_error_frame (c := c) hwhole rfl
      exact drains_wait_iff hdecode

/-- The decoder asks for more bytes on a whole frame exactly if it is an error frame; and of
frames in one buffer it returns all records before it asks for more exactly if no record is behind an
error frame. -/
theorem strands_records_iff (haead : Aead.OpensSealed) :
    (∀ (c : Codec) (src : List UInt8),
      (∀ c' src', c.decode src = .ok (.ok none,c',src') → ∀ header, ¬ WholeFrame src header) ↔
      ∀ header, WholeFrame src header → header.typ ≠ .error) ∧
    ∀ (c : Codec) (frames : List Frame), (∀ f ∈ frames, f.Honest) →
      c.nonce + (records frames).length ≤ maxNonce →
      (Drains c (wire c frames) (records frames) ↔ ErrorsLast frames) := by
  refine ⟨fun c src => ⟨fun h header hwhole htyp => ?_,fun h c' src' hdecode header hwhole => ?_⟩,
    fun c frames => drains_wire_iff haead c⟩
  · obtain ⟨src',hdecode⟩ := decode_error_frame (c := c) hwhole htyp
    exact h c src' hdecode header hwhole
  · exact h header hwhole (decode_wait_cases hdecode hwhole)

end

/-- Two records before an error frame. -/
theorem strands_records_iff_last :
    letI := Noise.sumPrimitives.toAead
    Drains ⟨List.Vector.replicate 32 1,0⟩
      (wire ⟨List.Vector.replicate 32 1,0⟩ [.record [1],.record [2],.error [33]]) [[1],[2]] :=
  ((@strands_records_iff Noise.sumPrimitives.toAead Noise.sumPrimitives_opensSealed).2
    ⟨List.Vector.replicate 32 1,0⟩ [.record [1],.record [2],.error [33]]
    (by simp [Frame.Honest,maxChunkSize,maxMessageSize,Header.size,aeadOverhead])
    (by decide)).mpr rfl

/-- A record behind an error frame in one buffer is not returned before more bytes come. -/
theorem record_behind_error_stranded :
    letI := Noise.sumPrimitives.toAead
    let c : Codec := ⟨List.Vector.replicate 32 1,0⟩
    records [.error [33],.record [7]] = [[7]] ∧ ¬ Drains c (wire c [.error [33],.record [7]]) [[7]] := by
  refine ⟨rfl,fun h => ?_⟩
  have hlast := (@drains_wire_iff Noise.sumPrimitives.toAead Noise.sumPrimitives_opensSealed
    [.error [33],.record [7]] ⟨List.Vector.replicate 32 1,0⟩
    (by simp [Frame.Honest,maxChunkSize,maxMessageSize,Header.size,aeadOverhead])
    (by decide)).mp h
  cases hlast

end Tailnet.ControlNoise.Codec
