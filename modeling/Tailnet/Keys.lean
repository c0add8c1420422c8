import Tailnet.Lib.Bytes
import Tailnet.Lib.Text

/-! The text form of keys: what kind of key it is, a colon, and the bytes in hexadecimal. -/
namespace Tailnet.Keys
open List Text

inductive ParseError
  | invalidFormat
  | wrongLength
  | badPrefix
  deriving DecidableEq, Repr

inductive KeyName
  | challengePublicKey
  | derpServerPublicKey
  | discoPublicKey
  | discoPrivateKey
  | machinePublicKey
  | machinePrivateKey
  | networkLockPublicKey
  | networkLockPrivateKey
  | nodePublicKey
  | nodePrivateKey
  deriving DecidableEq, Repr

def KeyName.keyPrefix : KeyName → String
  | challengePublicKey => "chalpub"
  | derpServerPublicKey => "derp"
  | discoPublicKey => "discokey"
  | discoPrivateKey => "privkey"
  | machinePublicKey => "mkey"
  | machinePrivateKey => "privkey"
  | networkLockPublicKey => "nlpub"
  | networkLockPrivateKey => "nlpriv"
  | nodePublicKey => "nodekey"
  | nodePrivateKey => "privkey"

def keyLenBytes : ℕ := 32

def keyLenHexStr : ℕ := keyLenBytes*2

def KeyName.keyLenFullStr (name : KeyName) : ℕ := keyLenHexStr + Text.len name.keyPrefix.toList + 1

structure Key (name : KeyName) where
  bytes : Bytes keyLenBytes
  deriving DecidableEq

section
variable {name : KeyName}

def hexPair (b : UInt8) : List Char := [Nat.digitChar (b.toNat/16),Nat.digitChar (b.toNat%16)]

def Key.toString (key : Key name) : String :=
  String.ofList (name.keyPrefix.toList ++ ':' :: key.bytes.toList.flatMap hexPair)

/-- The byte of the digits at an index. -/
def readByte (hexStr : List Char) (i : ℕ) : Result UInt8 := do
  let slice ← Result.unwrap (Text.get hexStr i (i + 2))
  Result.unwrap (Text.byteFromStrRadix slice)

variable (name) in
def fromStr (s : String) : Result (Except ParseError (Key name)) :=
  if Text.len s.toList ≠ name.keyLenFullStr then .ok (.error .wrongLength)
  else
    let parts := s.toList.splitOn ':'
    match parts[0]? with
    | none => .ok (.error .invalidFormat)
    | some keyPrefix =>
      if keyPrefix ≠ name.keyPrefix.toList then .ok (.error .badPrefix)
      else match parts[1]? with
        | none => .ok (.error .wrongLength)
        | some hexStr =>
          if Text.len hexStr ≠ keyLenHexStr then .ok (.error .wrongLength)
          else if parts[2]?.isSome then .ok (.error .invalidFormat)
          else do
            let key ← List.Vector.mOfFn fun i : Fin keyLenBytes => readByte hexStr (2*i)
            return .ok ⟨key⟩

theorem KeyName.colon_notMem_keyPrefix : ':' ∉ name.keyPrefix.toList := by
  cases name <;> decide

/-- Text that gets as far as the loop over the digits: sixty-four bytes behind the colon, without
another colon. -/
structure Framed (name : KeyName) (s : String) (hexStr : List Char) : Prop where
  toList : s.toList = name.keyPrefix.toList ++ ':' :: hexStr
  colon : ':' ∉ hexStr
  len : Text.len hexStr = keyLenHexStr

theorem Framed.unique {s : String} {h h' : List Char} (hf : Framed name s h) (hf' : Framed name s h') :
    h = h' := by
  have heq := hf.toList.symm.trans hf'.toList
  simpa using heq

theorem Framed.fromStr {s : String} {hexStr : List Char} (h : Framed name s hexStr) :
    fromStr name s = do
      let key ← List.Vector.mOfFn fun i : Fin keyLenBytes => readByte hexStr (2*i)
      return .ok ⟨key⟩ := by
  have hlen : Text.len s.toList = name.keyLenFullStr := by
    rw [h.toList,len_append,len_cons,h.len,KeyName.keyLenFullStr]
    have : Char.utf8Size ':' = 1 := by decide
    omega
  have hparts : s.toList.splitOn ':' = [name.keyPrefix.toList,hexStr] := by
    rw [h.toList,splitOn_append_cons_self_of_not_mem KeyName.colon_notMem_keyPrefix,
      splitOn_eq_singleton h.colon]
  simp [Keys.fromStr,hlen,hparts,h.len]

theorem notMem_of_splitOn_eq_singleton {s t : List Char} (h : s.splitOn ':' = [t]) : ':' ∉ s := by
  intro hm
  obtain ⟨a,b,rfl,-⟩ := eq_append_cons_of_mem hm
  rw [splitOn_append_cons_self] at h
  have hlen := congrArg List.length h
  have ha := length_pos_iff.mpr (splitOn_ne_nil ':' a)
  have hb := length_pos_iff.mpr (splitOn_ne_nil ':' b)
  rw [length_append,length_singleton] at hlen
  omega

theorem framed_of_parts {s : String} {hexStr : List Char}
    (hparts : s.toList.splitOn ':' = [name.keyPrefix.toList,hexStr])
    (hlen : Text.len hexStr = keyLenHexStr) : Framed name s hexStr := by
  have hs : s.toList = name.keyPrefix.toList ++ ':' :: hexStr := by
    have h : [':'].intercalate (s.toList.splitOn ':') = s.toList := intercalate_splitOn ':'
    rw [hparts] at h
    simpa [List.intercalate] using h.symm
  have hone : hexStr.splitOn ':' = [hexStr] := by
    rw [hs,splitOn_append_cons_self_of_not_mem KeyName.colon_notMem_keyPrefix] at hparts
    exact (List.cons.inj hparts).2
  exact ⟨hs,notMem_of_splitOn_eq_singleton hone,hlen⟩

theorem eq_pair_of_getElem? {α : Type} {l : List α} {a b : α} (ha : l[0]? = some a) (hb : l[1]? = some b)
    (hc : l[2]? = none) : l = [a,b] := by
  match l with
  | [] => cases ha
  | [_] => cases hb
  | [x,y] => simp_all
  | _ :: _ :: _ :: _ => simp at hc

theorem fromStr_of_not_framed {s : String} (h : ∀ hexStr, ¬Framed name s hexStr) :
    ∃ e, fromStr name s = .ok (.error e) := by
  unfold fromStr
  split
  · exact ⟨_,rfl⟩
  · dsimp only
    split
    · exact ⟨_,rfl⟩
    · rename_i keyPrefix hfirst
      split
      · exact ⟨_,rfl⟩
      · rename_i hpfx
        split
        · exact ⟨_,rfl⟩
        · rename_i hexStr hsecond
          split
          · exact ⟨_,rfl⟩
          · rename_i hlen
            split
            · exact ⟨_,rfl⟩
            · rename_i hthird
              have hparts : s.toList.splitOn ':' = [keyPrefix,hexStr] :=
                eq_pair_of_getElem? hfirst hsecond (by simpa using hthird)
              rw [not_not.mp hpfx] at hparts
              exact absurd (framed_of_parts hparts (not_not.mp hlen)) (h hexStr)

/-- The text of a key: its kind, a colon and sixty-four digits. -/
def IsKeyText (name : KeyName) (s : String) : Prop :=
  ∃ hexStr, s.toList = name.keyPrefix.toList ++ ':' :: hexStr ∧ hexStr.length = keyLenHexStr ∧
    ∀ c ∈ hexStr, (Text.hexDigit c).isSome

theorem framed_of_digits {s : String} {hexStr : List Char}
    (hs : s.toList = name.keyPrefix.toList ++ ':' :: hexStr) (hlen : hexStr.length = keyLenHexStr)
    (hd : ∀ c ∈ hexStr, (Text.hexDigit c).isSome) : Framed name s hexStr ∧ Text.Ascii hexStr := by
  have hdigit : ∀ c ∈ hexStr, c.utf8Size = 1 ∧ c ≠ ':' := by
    intro c hc
    obtain ⟨d,h⟩ := Option.isSome_iff_exists.mp (hd c hc)
    obtain ⟨-,hsize,-,hcolon⟩ := hexDigit_eq_some h
    exact ⟨hsize,hcolon⟩
  have hascii : Text.Ascii hexStr := fun c hc => (hdigit c hc).1
  exact ⟨⟨hs,fun hc => (hdigit _ hc).2 rfl,hascii.len.trans hlen⟩,hascii⟩

theorem isKeyText_of_framed {s : String} {hexStr : List Char} (h : Framed name s hexStr)
    (hd : ∀ c ∈ hexStr, (Text.hexDigit c).isSome) : IsKeyText name s := by
  have ha : Text.Ascii hexStr := by
    intro c hc
    obtain ⟨d,hcd⟩ := Option.isSome_iff_exists.mp (hd c hc)
    exact (hexDigit_eq_some hcd).2.1
  exact ⟨hexStr,h.toList,ha.len.symm.trans h.len,hd⟩

theorem readByte_of_digits {hexStr : List Char} (ha : Text.Ascii hexStr) {i m n : ℕ} {a b : Char}
    {rest : List Char} (hdrop : hexStr.drop i = a :: b :: rest) (hm : Text.hexDigit a = some m)
    (hn : Text.hexDigit b = some n) : readByte hexStr i = .ok (UInt8.ofNat (16*m + n)) := by
  have hlen : i + 2 ≤ hexStr.length := by
    have h := congrArg List.length hdrop
    simp only [length_drop,length_cons] at h
    omega
  rw [readByte,ha.get hlen,hdrop]
  simp [byteFromStrRadix_pair hm hn]

/-- A loop that fills an array returns when each of its rounds does. -/
theorem mOfFn_eq_ok {α : Type} {n : ℕ} {f : Fin n → Result α} {v : List.Vector α n}
    (h : ∀ i, f i = .ok (v.get i)) : List.Vector.mOfFn f = .ok v := by
  induction n with
  | zero => exact congrArg Except.ok (Subsingleton.elim _ v)
  | succ n ih =>
    have htail : List.Vector.mOfFn (fun i : Fin n => f i.succ) = .ok v.tail := by
      apply ih
      intro i
      rw [h i.succ,List.Vector.get_tail_succ]
    rw [List.Vector.mOfFn,h 0,Result.bind_of_ok,htail,List.Vector.get_zero]
    simp

theorem exists_fromStr_of_isKeyText {s : String} (h : IsKeyText name s) :
    ∃ key, fromStr name s = .ok (.ok key) := by
  obtain ⟨hexStr,hs,hlen,hd⟩ := h
  obtain ⟨hf,ha⟩ := framed_of_digits hs hlen hd
  have hbyte : ∀ i : Fin keyLenBytes, ∃ b, readByte hexStr (2*i) = .ok b := by
    intro i
    have hi : 2*(i : ℕ) + 1 < hexStr.length := by
      have := i.isLt
      rw [hlen,keyLenHexStr]
      omega
    have hdrop : hexStr.drop (2*i) = hexStr[2*(i : ℕ)] :: hexStr[2*(i : ℕ) + 1] :: hexStr.drop (2*i + 2) := by
      rw [drop_eq_getElem_cons (by omega),drop_eq_getElem_cons hi]
    obtain ⟨m,hm⟩ := Option.isSome_iff_exists.mp (hd _ (getElem_mem (by omega : 2*(i : ℕ) < hexStr.length)))
    obtain ⟨n,hn⟩ := Option.isSome_iff_exists.mp (hd _ (getElem_mem hi))
    exact ⟨_,readByte_of_digits ha hdrop hm hn⟩
  choose b hb using hbyte
  have hloop : List.Vector.mOfFn (fun i : Fin keyLenBytes => readByte hexStr (2*i)) =
      .ok (List.Vector.ofFn b) := mOfFn_eq_ok (fun i => by rw [hb,List.Vector.get_ofFn])
  exact ⟨⟨List.Vector.ofFn b⟩,by rw [hf.fromStr,hloop]; rfl⟩

theorem hexDigit_digitChar {n : ℕ} (h : n < 16) : Text.hexDigit (Nat.digitChar n) = some n := by
  interval_cases n <;> decide

theorem drop_flatMap_hexPair (bytes : List UInt8) (i : ℕ) :
    (bytes.flatMap hexPair).drop (2*i) = (bytes.drop i).flatMap hexPair := by
  induction i generalizing bytes with
  | zero => rfl
  | succ i ih =>
    cases bytes with
    | nil => rfl
    | cons b bytes => exact ih bytes

theorem length_flatMap_hexPair (bytes : List UInt8) : (bytes.flatMap hexPair).length = bytes.length*2 := by
  induction bytes with
  | nil => rfl
  | cons b bytes ih =>
    rw [flatMap_cons,length_append,ih,length_cons]
    simp [hexPair]
    omega

theorem isSome_hexDigit_of_mem {bytes : List UInt8} {c : Char} (h : c ∈ bytes.flatMap hexPair) :
    (Text.hexDigit c).isSome := by
  obtain ⟨b,-,hc⟩ := mem_flatMap.mp h
  have hb := b.toNat_lt
  simp only [hexPair,mem_cons,not_mem_nil,or_false] at hc
  obtain rfl | rfl := hc
  · rw [hexDigit_digitChar (by omega)]
    rfl
  · rw [hexDigit_digitChar (by omega)]
    rfl

theorem fromStr_toString (key : Key name) : fromStr name key.toString = .ok (.ok key) := by
  have hlen : (key.bytes.toList.flatMap hexPair).length = keyLenHexStr := by
    rw [length_flatMap_hexPair,List.Vector.toList_length,keyLenHexStr]
  have hs : key.toString.toList = name.keyPrefix.toList ++ ':' :: key.bytes.toList.flatMap hexPair := by
    simp [Key.toString]
  obtain ⟨hf,ha⟩ := framed_of_digits hs hlen fun c hc => isSome_hexDigit_of_mem hc
  have hloop : List.Vector.mOfFn (fun i : Fin keyLenBytes =>
      readByte (key.bytes.toList.flatMap hexPair) (2*i)) = .ok key.bytes := by
    apply mOfFn_eq_ok
    intro i
    have hi : (i : ℕ) < key.bytes.toList.length := by simp
    have hget : key.bytes.toList[(i : ℕ)] = key.bytes.get i := rfl
    have hdrop : (key.bytes.toList.flatMap hexPair).drop (2*i) =
        hexPair (key.bytes.get i) ++ (key.bytes.toList.drop (i + 1)).flatMap hexPair := by
      rw [drop_flatMap_hexPair,drop_eq_getElem_cons hi,hget]
      rfl
    have hb := (key.bytes.get i).toNat_lt
    rw [readByte_of_digits ha hdrop (hexDigit_digitChar (by omega)) (hexDigit_digitChar (by omega)),
      Nat.div_add_mod,UInt8.ofNat_toNat]
  rw [hf.fromStr,hloop]
  rfl

/-- The text format on one text: parsing returns, and accepts just the text of a key. -/
def FormatHolds (name : KeyName) (s : String) : Prop :=
  ∃ r, fromStr name s = .ok r ∧ ((∃ key, r = .ok key) ↔ IsKeyText name s)

/-- The format holds for just the texts that do not put something else in the place of the digits, and
every key is read back from its text. -/
theorem fromStr_format_iff (name : KeyName) :
    (∀ s, FormatHolds name s ↔
      ∀ hexStr, Framed name s hexStr → ∀ c ∈ hexStr, (Text.hexDigit c).isSome) ∧
    ∀ key : Key name, fromStr name key.toString = .ok (.ok key) := by
  refine ⟨?_,fromStr_toString⟩
  intro s
  by_cases hf : ∃ hexStr, Framed name s hexStr
  · obtain ⟨hexStr,hf⟩ := hf
    constructor
    · rintro ⟨r,hr,hiff⟩ hexStr' hf'
      -- the loop either panics or makes a key
      have hok : ∃ key, r = .ok key := by
        rw [hf.fromStr] at hr
        obtain ⟨bytes,-,hr⟩ := Result.bind_eq_ok.mp hr
        cases hr
        exact ⟨_,rfl⟩
      obtain ⟨digits,hs,hlen,hd⟩ := hiff.mp hok
      obtain ⟨hfd,-⟩ := framed_of_digits hs hlen hd
      rw [hf'.unique hfd]
      exact hd
    · intro hd
      have htext : IsKeyText name s := isKeyText_of_framed hf (hd _ hf)
      obtain ⟨key,hkey⟩ := exists_fromStr_of_isKeyText htext
      exact ⟨_,hkey,fun _ => htext,fun _ => ⟨key,rfl⟩⟩
  · have hno : ∀ hexStr, ¬Framed name s hexStr := fun hexStr h => hf ⟨hexStr,h⟩
    obtain ⟨e,he⟩ := fromStr_of_not_framed hno
    constructor
    · intro _ hexStr h
      exact absurd h (hno hexStr)
    · intro _
      refine ⟨_,he,?_,?_⟩
      · rintro ⟨key,h⟩
        cases h
      · rintro ⟨hexStr,hs,hlen,hd⟩
        exact absurd (framed_of_digits hs hlen hd).1 (hno hexStr)

theorem not_formatHolds_of_panic {s : String} {p : Panic} (h : Result.panic (fromStr name s) = some p) :
    ¬FormatHolds name s := by
  rintro ⟨r,hr,-⟩
  rw [hr] at h
  cases h

/-- A letter that is no digit stops the parser, and so do characters of two bytes. A sign in front of
every second digit is accepted. -/
theorem non_digit_panics :
    ¬FormatHolds .nodePublicKey (String.ofList ("nodekey:".toList ++ List.replicate 64 'g')) ∧
    ¬FormatHolds .nodePublicKey (String.ofList ("nodekey:f".toList ++ List.replicate 31 'é' ++ ['f'])) ∧
    ¬FormatHolds .nodePublicKey
      (String.ofList ("nodekey:".toList ++ (List.replicate 32 ['+','f']).flatten)) := by
  refine ⟨not_formatHolds_of_panic (p := .unwrapNone) (by decide +kernel),
    not_formatHolds_of_panic (p := .unwrapNone) (by decide +kernel),?_⟩
  rintro ⟨r,hr,hiff⟩
  have hkey : (fromStr .nodePublicKey (String.ofList ("nodekey:".toList ++
      (List.replicate 32 ['+','f']).flatten))).toOption.any (fun r => r.toOption.isSome) = true := by
    decide +kernel
  rw [hr] at hkey
  cases r with
  | error e => cases hkey
  | ok key =>
    obtain ⟨hexStr,hs,-,hd⟩ := hiff.mp ⟨key,rfl⟩
    have htext : hexStr = (List.replicate 32 ['+','f']).flatten := by
      rw [String.toList_ofList] at hs
      exact ((append_right_inj "nodekey:".toList).mp hs).symm
    have hplus : (Text.hexDigit '+').isSome := hd _ (by rw [htext]; decide)
    cases hplus

end
end Tailnet.Keys
