import Tailnet.Lib.Result

/-! Parsing of HTTP/1.1 requests that are received inside of another protocol, with the decoding of a
chunked body. -/
namespace Tailnet.Http1
open List Result

/-- What a parser says about a buffer that may have to grow. -/
inductive Status (α : Type)
  | complete (a : α)
  | incomplete
  deriving DecidableEq, Repr

inductive Error
  | invalidInput
  deriving DecidableEq, Repr

/-- The fields that parsing fills in. -/
structure RawRequest where
  method : Option String
  path : Option String
  version : Option ℕ
  headers : List (String × List UInt8)
  deriving DecidableEq, Repr

/-- The parts of a request, its headers by their normalized names. -/
structure Parts where
  method : String
  uri : String
  headers : List (String × List UInt8)
  deriving DecidableEq, Repr

structure Request where
  parts : Parts
  body : String
  deriving DecidableEq

/-- The parsers that this one is built on. -/
structure Parsers where
  /-- parse the head of a request, with room for some number of headers -/
  parseHead : ℕ → List UInt8 → Except Unit (Status ℕ × RawRequest)
  /-- parse a chunk size line: the index behind it, and the size of the chunk that follows -/
  parseChunkSize : List UInt8 → Except Unit (Status (ℕ × ℕ))
  headerName : String → Option String
  headerValue : List UInt8 → Option (List UInt8)
  /-- whether a request can be built of a method, a path and headers -/
  buildable : String → String → List (String × List UInt8) → Bool

/-- The index at which parsing stopped is one of the buffer, and a size line is not empty. -/
structure Parsers.StopsInside (http : Parsers) : Prop where
  parseHead : ∀ n buf offset raw,
    http.parseHead n buf = .ok (.complete offset,raw) → offset ≤ buf.length
  parseChunkSize : ∀ buf offset size,
    http.parseChunkSize buf = .ok (.complete (offset,size)) → 0 < offset ∧ offset ≤ buf.length

def crlf : List UInt8 := [13,10]

/-- A size line without digits has size zero. The loop relies on it to pass over the end of line behind
the data of a chunk. -/
def Parsers.BlankIsZero (http : Parsers) : Prop :=
  ∀ rest, http.parseChunkSize (crlf ++ rest) = .ok (.complete (2,0))

def encodingChunked : List UInt8 := [99,104,117,110,107,101,100]

def maxParsedHeaders : ℕ := 16

section
variable (http : Parsers)

def parseHeaders : List (String × List UInt8) → Except Error (List (String × List UInt8))
  | [] => .ok []
  | (name,value) :: hdrs =>
    match http.headerName name with
    | none => .error .invalidInput
    | some name =>
      match http.headerValue value with
      | none => .error .invalidInput
      | some value => (parseHeaders hdrs).map ((name,value) :: ·)

def parseRequestParts (buf : List UInt8) : Except Error (Parts × ℕ) :=
  match http.parseHead maxParsedHeaders buf with
  | .ok (.complete offset,{ method := some method, path := some uri, version := some 1, headers }) => do
    let headers ← parseHeaders http headers
    if http.buildable method uri headers then .ok (⟨method,uri,headers⟩,offset)
    else .error .invalidInput
  | _ => .error .invalidInput

/-- The bytes of a slice. A sum of indices that overflows is past the end of every slice. -/
def slice (xs : List UInt8) (start stop : ℕ) : Result (List UInt8) :=
  if stop ≤ xs.length then .ok ((xs.take stop).drop start) else .error .indexOutOfBounds

/-- The chunk loop of `parse_body`. -/
def parseChunks (body : List UInt8) : ℕ → ℕ → List UInt8 → Result (List UInt8)
  | 0,_,_ => .error .divergence
  | fuel + 1,idx,bytes => do
    let rest ← Result.sliceFrom body idx
    match http.parseChunkSize rest with
    | .ok (.complete (startOffset,chunkSize)) =>
      let startIdx := idx + startOffset
      let endIdx := startIdx + chunkSize
      let chunk ← slice body startIdx endIdx
      parseChunks body fuel (idx + (startOffset + chunkSize)) (bytes ++ chunk)
    | _ => .ok bytes

def parseBody (headers : List (String × List UInt8)) (body : List UInt8) :
    Result (Except Error (List UInt8)) :=
  match headers.lookup "transfer-encoding" with
  | none => .ok (.ok body)
  | some encoding =>
    if encoding = encodingChunked then
      -- every round passes over a size line, so there are at most as many as bytes
      .ok <$> parseChunks http body (body.length + 1) 0 []
    else .ok (.error .invalidInput)

def fromUtf8 (bytes : List UInt8) : Option String := String.fromUTF8? ⟨⟨bytes⟩⟩

def parseRequest (buf : List UInt8) : Result (Except Error Request) :=
  match parseRequestParts http buf with
  | .error e => .ok (.error e)
  | .ok (parts,offset) => do
    let body ← Result.sliceFrom buf offset
    match ← parseBody http parts.headers body with
    | .error e => .ok (.error e)
    | .ok bytes =>
      match fromUtf8 bytes with
      | none => .ok (.error .invalidInput)
      | some body => .ok (.ok ⟨parts,body⟩)

/-- A walk over a body from size line to size line: the data it passes, up to where no further size line
can be read. Every chunk on the way is inside of the body. -/
inductive Walk : List UInt8 → List UInt8 → Prop
  | stop {body : List UInt8}
      (none : ∀ offset size, http.parseChunkSize body ≠ .ok (.complete (offset,size))) : Walk body []
  | step {body data : List UInt8} {offset size : ℕ}
      (line : http.parseChunkSize body = .ok (.complete (offset,size)))
      (fits : offset + size ≤ body.length)
      (rest : Walk (body.drop (offset + size)) data) :
      Walk body ((body.drop offset).take size ++ data)

/-- The end of a chunked body: trailer fields, a line each, and an empty line. -/
inductive Trailer : List UInt8 → Prop
  | blank (after : List UInt8) : Trailer (crlf ++ after)
  | field {line after : List UInt8} (nonempty : line ≠ []) (oneLine : 13 ∉ line)
      (rest : Trailer after) : Trailer (line ++ crlf ++ after)

/-- A complete chunked encoding of some data, and what stands behind the size line of its last chunk. -/
inductive Encodes : List UInt8 → List UInt8 → List UInt8 → Prop
  | last {body : List UInt8} {offset : ℕ}
      (line : http.parseChunkSize body = .ok (.complete (offset,0)))
      (trailer : Trailer (body.drop offset)) : Encodes body [] (body.drop offset)
  | chunk {body chunk rest data tail : List UInt8} {offset : ℕ}
      (line : http.parseChunkSize body = .ok (.complete (offset,chunk.length)))
      (nonempty : chunk ≠ []) (bytes : body.drop offset = chunk ++ (crlf ++ rest))
      (more : Encodes rest data tail) : Encodes body (chunk ++ data) tail

variable {http}

theorem Walk.unique {body data data' : List UInt8} (h : Walk http body data) (h' : Walk http body data') :
    data = data' := by
  induction h generalizing data' with
  | stop none =>
    cases h' with
    | stop _ => rfl
    | step line _ _ => exact absurd line (none _ _)
  | step line fits rest ih =>
    cases h' with
    | stop none => exact absurd line (none _ _)
    | step line' fits' rest' =>
      rw [line] at line'
      cases line'
      rw [ih rest']

/-- A chunk with its end of line is passed in two steps. -/
theorem walk_chunk_iff (hb : http.BlankIsZero) {body chunk rest all : List UInt8} {offset : ℕ}
    (line : http.parseChunkSize body = .ok (.complete (offset,chunk.length)))
    (bytes : body.drop offset = chunk ++ (crlf ++ rest)) (ho : offset ≤ body.length) :
    Walk http body all ↔ ∃ more, Walk http rest more ∧ all = chunk ++ more := by
  have hlen : body.length = offset + (chunk.length + (2 + rest.length)) := by
    have h := congrArg List.length bytes
    simp only [length_drop,length_append,crlf,length_cons,length_nil] at h
    omega
  have hdrop : body.drop (offset + chunk.length) = crlf ++ rest := by
    rw [← drop_drop,bytes,drop_left]
  have htake : (body.drop offset).take chunk.length = chunk := by rw [bytes,take_left]
  have hblank := hb rest
  constructor
  · intro h
    cases h with
    | stop none => exact absurd line (none _ _)
    | step line' fits hw =>
      rw [line] at line'
      cases line'
      rw [hdrop] at hw
      cases hw with
      | stop none => exact absurd hblank (none _ _)
      | step line'' fits' hw' =>
        rw [hblank] at line''
        cases line''
        exact ⟨_,hw',by rw [htake]; rfl⟩
  · rintro ⟨more,hw,rfl⟩
    have hempty : Walk http (crlf ++ rest) more := by
      have h := Walk.step hblank (by simp [crlf]) (by simpa [crlf] using hw)
      simpa using h
    have h := Walk.step line (by omega) (by rw [hdrop]; exact hempty)
    rwa [htake] at h

theorem walk_last_iff {body all : List UInt8} {offset : ℕ}
    (line : http.parseChunkSize body = .ok (.complete (offset,0))) (ho : offset ≤ body.length) :
    Walk http body all ↔ Walk http (body.drop offset) all := by
  constructor
  · intro h
    cases h with
    | stop none => exact absurd line (none _ _)
    | step line' fits hw =>
      rw [line] at line'
      cases line'
      simpa using hw
  · intro h
    have h' := Walk.step line (by omega) (by simpa using h)
    simpa using h'

/-- Behind the data of a complete encoding the walk goes on. -/
theorem Encodes.walk_iff (hs : http.StopsInside) (hb : http.BlankIsZero) {body data tail all : List UInt8}
    (h : Encodes http body data tail) :
    Walk http body all ↔ ∃ more, Walk http tail more ∧ all = data ++ more := by
  induction h generalizing all with
  | last line trailer =>
    rw [walk_last_iff line (hs.parseChunkSize _ _ _ line).2]
    simp
  | chunk line nonempty bytes more ih =>
    rw [walk_chunk_iff hb line bytes (hs.parseChunkSize _ _ _ line).2]
    simp only [ih,append_assoc]
    constructor
    · rintro ⟨_,⟨m,hm,rfl⟩,rfl⟩
      exact ⟨m,hm,rfl⟩
    · rintro ⟨m,hm,rfl⟩
      exact ⟨_,⟨m,hm,rfl⟩,rfl⟩

theorem slice_eq_ok {xs : List UInt8} {idx offset size : ℕ} (h : idx + offset + size ≤ xs.length) :
    slice xs (idx + offset) (idx + offset + size) = .ok (((xs.drop idx).drop offset).take size) := by
  rw [slice,if_pos h,drop_take,drop_drop]
  simp

/-- The loop collects what the walk passes, and does not return when there is no walk. -/
theorem parseChunks_eq_ok (hs : http.StopsInside) (body : List UInt8) (fuel idx : ℕ)
    (bytes all : List UInt8) (hidx : idx ≤ body.length) (hfuel : body.length < idx + fuel) :
    parseChunks http body fuel idx bytes = .ok all ↔
      ∃ data, Walk http (body.drop idx) data ∧ all = bytes ++ data := by
  induction fuel generalizing idx bytes with
  | zero => omega
  | succ fuel ih =>
    simp only [parseChunks,sliceFrom_of_le hidx,bind_of_ok]
    split
    · rename_i offset size line
      have hoff := hs.parseChunkSize _ _ _ line
      have hlen : (body.drop idx).length = body.length - idx := length_drop
      by_cases hfit : idx + offset + size ≤ body.length
      · rw [slice_eq_ok hfit,bind_of_ok,ih _ _ (by omega) (by omega),← drop_drop]
        constructor
        · rintro ⟨data,hw,rfl⟩
          exact ⟨_,.step line (by omega) hw,by simp⟩
        · rintro ⟨data,hw,rfl⟩
          cases hw with
          | stop none => exact absurd line (none _ _)
          | step line' fits hw =>
            rw [line] at line'
            cases line'
            exact ⟨_,hw,by simp⟩
      · rw [slice,if_neg hfit]
        simp only [bind_of_error,reduceCtorEq,false_iff]
        rintro ⟨data,hw,-⟩
        cases hw with
        | stop none => exact absurd line (none _ _)
        | step line' fits hw =>
          rw [line] at line'
          cases line'
          omega
    · rename_i hnone
      constructor
      · intro h
        cases h
        exact ⟨[],.stop hnone,by simp⟩
      · rintro ⟨data,hw,rfl⟩
        rw [hw.unique (.stop hnone),append_nil]

variable (http)

/-- Parsing of one buffer returns, and what it returns for a chunked body is the data of a complete
encoding: a body that is cut off or that announces more than there is is refused. -/
structure Exact (buf : List UInt8) : Prop where
  total : ∃ r, parseRequest http buf = .ok r
  decoded : ∀ parts offset req, parseRequestParts http buf = .ok (parts,offset) →
    parts.headers.lookup "transfer-encoding" = some encodingChunked →
    parseRequest http buf = .ok (.ok req) →
    ∃ tail, Encodes http (buf.drop offset) req.body.toUTF8.data.toList tail
  refused : ∀ parts offset, parseRequestParts http buf = .ok (parts,offset) →
    parts.headers.lookup "transfer-encoding" = some encodingChunked →
    (∀ data tail, ¬Encodes http (buf.drop offset) data tail) →
    ∃ e, parseRequest http buf = .ok (.error e)

/-- A chunked body that is complete and has no data behind its last chunk. The other bodies that are not
taken for a request are those whose chunks, all inside of the body, are not text. -/
def PlainChunks (body : List UInt8) : Prop :=
  (∃ data tail, Encodes http body data tail ∧ Walk http tail []) ∨
    ∃ data, Walk http body data ∧ fromUtf8 data = none

variable {http}

theorem toUTF8_of_fromUtf8 {bytes : List UInt8} {s : String} (h : fromUtf8 bytes = some s) :
    s.toUTF8.data.toList = bytes := by
  simp only [fromUtf8,String.fromUTF8?] at h
  split at h
  · cases h
    rfl
  · cases h

theorem parseRequestParts_offset (hs : http.StopsInside) {buf : List UInt8} {parts : Parts} {offset : ℕ}
    (h : parseRequestParts http buf = .ok (parts,offset)) : offset ≤ buf.length := by
  unfold parseRequestParts at h
  split at h
  · rename_i offset' method uri headers hhead
    cases hh : parseHeaders http headers with
    | error e =>
      rw [hh] at h
      cases h
    | ok hdrs =>
      rw [hh] at h
      change (if _ then _ else _) = _ at h
      split at h
      · cases h
        exact hs.parseHead _ _ _ _ hhead
      · cases h
  · cases h

/-- A request with a chunked body, by the walk over the body. -/
theorem parseRequest_chunked (hs : http.StopsInside) {buf : List UInt8} {parts : Parts} {offset : ℕ}
    (hp : parseRequestParts http buf = .ok (parts,offset)) (ho : offset ≤ buf.length)
    (hc : parts.headers.lookup "transfer-encoding" = some encodingChunked) (r : Except Error Request) :
    parseRequest http buf = .ok r ↔ ∃ data, Walk http (buf.drop offset) data ∧
      r = match fromUtf8 data with
        | none => .error .invalidInput
        | some body => .ok ⟨parts,body⟩ := by
  have hloop := fun all => parseChunks_eq_ok hs (buf.drop offset) ((buf.drop offset).length + 1) 0 [] all
    (Nat.zero_le _) (by omega)
  simp only [drop_zero,nil_append,exists_eq_right'] at hloop
  simp only [parseRequest,hp,sliceFrom_of_le ho,bind_of_ok,parseBody,hc,if_true]
  cases hx : parseChunks http (buf.drop offset) ((buf.drop offset).length + 1) 0 [] with
  | error p =>
    have hno : ∀ data, ¬Walk http (buf.drop offset) data := by
      intro data hw
      have h := (hloop data).mpr hw
      rw [hx] at h
      cases h
    simp [hno]
  | ok all =>
    have hw := (hloop all).mp hx
    have huniq : ∀ data, Walk http (buf.drop offset) data ↔ data = all := by
      intro data
      constructor
      · exact fun h => h.unique hw
      · rintro rfl
        exact hw
    simp only [huniq,exists_eq_left,map_of_ok,bind_of_ok]
    cases fromUtf8 all <;> simp [eq_comm]

theorem parseRequest_total (hs : http.StopsInside) {buf : List UInt8}
    (hc : ∀ parts offset, parseRequestParts http buf = .ok (parts,offset) →
      parts.headers.lookup "transfer-encoding" ≠ some encodingChunked) :
    ∃ r, parseRequest http buf = .ok r := by
  unfold parseRequest
  split
  · exact ⟨_,rfl⟩
  · rename_i parts offset hp
    rw [sliceFrom_of_le (parseRequestParts_offset hs hp),bind_of_ok]
    have hbody : ∃ b, parseBody http parts.headers (buf.drop offset) = .ok b := by
      unfold parseBody
      split
      · exact ⟨_,rfl⟩
      · rename_i encoding he
        have hne : encoding ≠ encodingChunked := fun h => hc _ _ hp (h ▸ he)
        exact ⟨_,if_neg hne⟩
    obtain ⟨b,hb⟩ := hbody
    rw [hb,bind_of_ok]
    split
    · exact ⟨_,rfl⟩
    · split <;> exact ⟨_,rfl⟩

theorem exact_of_plain (hs : http.StopsInside) (hb : http.BlankIsZero) {buf : List UInt8} {parts : Parts}
    {offset : ℕ} (hp : parseRequestParts http buf = .ok (parts,offset))
    (hc : parts.headers.lookup "transfer-encoding" = some encodingChunked)
    (h : PlainChunks http (buf.drop offset)) : Exact http buf := by
  have hparse := parseRequest_chunked hs hp (parseRequestParts_offset hs hp) hc
  obtain ⟨data,tail,he,htail⟩ | ⟨data,hw,hu⟩ := h
  · have hw : Walk http (buf.drop offset) data := (he.walk_iff hs hb).mpr ⟨[],htail,by simp⟩
    refine ⟨⟨_,(hparse _).mpr ⟨data,hw,rfl⟩⟩,?_,?_⟩
    · intro parts' offset' req hp' _ hr
      cases hp.symm.trans hp'
      obtain ⟨data',hw',hreq⟩ := (hparse _).mp hr
      cases hw.unique hw'
      cases hu : fromUtf8 data with
      | none => simp [hu] at hreq
      | some body =>
        have hbody : req = ⟨parts,body⟩ := by simpa [hu] using hreq
        exact ⟨tail,by rw [hbody,toUTF8_of_fromUtf8 hu]; exact he⟩
    · intro parts' offset' hp' _ hno
      cases hp.symm.trans hp'
      exact absurd he (hno _ _)
  · have hr : parseRequest http buf = .ok (.error .invalidInput) :=
      (hparse _).mpr ⟨data,hw,by rw [hu]⟩
    refine ⟨⟨_,hr⟩,fun _ _ req _ _ h => ?_,fun _ _ _ _ _ => ⟨_,hr⟩⟩
    rw [hr] at h
    cases h

end
def hexDigit (b : UInt8) : Option ℕ :=
  if 48 ≤ b ∧ b ≤ 57 then some (b.toNat - 48)
  else if 97 ≤ b ∧ b ≤ 102 then some (b.toNat - 87)
  else none

/-- A size line of hexadecimal digits only, of which some bytes and a number have been read. -/
def readSize (read size : ℕ) : List UInt8 → Except Unit (Status (ℕ × ℕ))
  | [] => .ok .incomplete
  | 13 :: 10 :: _ => .ok (.complete (read + 2,size))
  | [13] => .ok .incomplete
  | b :: bs =>
    match hexDigit b with
    | some d => readSize (read + 1) (size * 16 + d) bs
    | none => .error ()

theorem readSize_inside (read size : ℕ) (buf : List UInt8) (offset n : ℕ)
    (h : readSize read size buf = .ok (.complete (offset,n))) :
    read < offset ∧ offset ≤ read + buf.length := by
  fun_induction readSize read size buf with
  | case1 => cases h
  | case2 read size rest =>
    cases h
    simp
  | case3 => cases h
  | case4 read size b bs _ _ d hd ih =>
    have h' := ih h
    simp only [length_cons]
    omega
  | case5 => cases h

/-- `POST / HTTP/1.1` with a chunked body. -/
def chunkedHead : List UInt8 :=
  [80,79,83,84,32,47,32,72,84,84,80,47,49,46,49,13,10,
    84,114,97,110,115,102,101,114,45,69,110,99,111,100,105,110,103,58,32,
    99,104,117,110,107,101,100,13,10,13,10]

/-- Parsers that know one head, and size lines of hexadecimal digits. -/
def oneHead : Parsers where
  parseHead _ buf :=
    if chunkedHead <+: buf then
      .ok (.complete chunkedHead.length,
        ⟨some "POST",some "/",some 1,[("Transfer-Encoding",encodingChunked)]⟩)
    else .error ()
  parseChunkSize := readSize 0 0
  headerName name := if name = "Transfer-Encoding" then some "transfer-encoding" else none
  headerValue := some
  buildable _ _ _ := true

theorem oneHead_stopsInside : oneHead.StopsInside where
  parseHead n buf offset raw h := by
    simp only [oneHead] at h
    split at h
    · rename_i hp
      cases h
      exact hp.length_le
    · cases h
  parseChunkSize buf offset size h := by
    have h' := readSize_inside 0 0 buf offset size h
    omega

theorem oneHead_blankIsZero : oneHead.BlankIsZero := fun _ => rfl

/-- The chunk `abc` and the end. -/
def abcBody : List UInt8 := [51,13,10,97,98,99,13,10,48,13,10,13,10]

theorem abcBody_plain : PlainChunks oneHead abcBody := by
  left
  have hlast : Encodes oneHead [48,13,10,13,10] [] [13,10] :=
    @Encodes.last oneHead [48,13,10,13,10] 3 rfl (.blank [])
  have hstop : Walk oneHead [] [] := .stop (by intro offset size h; cases h)
  have hend : Walk oneHead [13,10] [] := @Walk.step oneHead [13,10] [] 2 0 rfl (by decide) hstop
  exact ⟨[97,98,99] ++ [],_,.chunk rfl (by decide) rfl hlast,hend⟩

/-- What parsing makes of a buffer: a panic, or the body of the request. -/
def outcome (http : Parsers) (buf : List UInt8) : Option Panic × Option String :=
  match parseRequest http buf with
  | .error p => (some p,none)
  | .ok (.error _) => (none,none)
  | .ok (.ok req) => (none,some req.body)

end Tailnet.Http1
