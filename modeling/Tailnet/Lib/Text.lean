import Tailnet.Lib.Result

/-! Text as the list of its characters, with the operations that count in bytes of its UTF-8 form. -/
namespace Tailnet.Text

/-- `str::len`. -/
def len (s : List Char) : ℕ := (s.map Char.utf8Size).sum

/-- The rest behind some bytes, which have to end where a character ends. -/
def dropBytes : List Char → ℕ → Option (List Char)
  | s,0 => some s
  | [],_ + 1 => none
  | c :: s,n + 1 => if c.utf8Size ≤ n + 1 then dropBytes s (n + 1 - c.utf8Size) else none

def takeBytes : List Char → ℕ → Option (List Char)
  | _,0 => some []
  | [],_ + 1 => none
  | c :: s,n + 1 =>
    if c.utf8Size ≤ n + 1 then (takeBytes s (n + 1 - c.utf8Size)).map (c :: ·) else none

/-- `str::get` of a range of bytes. -/
def get (s : List Char) (start stop : ℕ) : Option (List Char) :=
  if start ≤ stop then (dropBytes s start).bind (takeBytes · (stop - start)) else none

/-- `char::to_digit` for radix 16. -/
def hexDigit (c : Char) : Option ℕ :=
  if '0' ≤ c ∧ c ≤ '9' then some (c.toNat - 48)
  else if 'a' ≤ c ∧ c ≤ 'f' then some (c.toNat - 87)
  else if 'A' ≤ c ∧ c ≤ 'F' then some (c.toNat - 55)
  else none

/-- Digits that are read into one byte. -/
def hexByte (acc : ℕ) : List Char → Option ℕ
  | [] => some acc
  | c :: s =>
    match hexDigit c with
    | none => none
    | some d => if acc*16 + d < 256 then hexByte (acc*16 + d) s else none

/-- `u8::from_str_radix` for radix 16: at least one digit, behind a plus sign or none. -/
def byteFromStrRadix : List Char → Option UInt8
  | [] => none
  | ['+'] => none
  | '+' :: s => (hexByte 0 s).map UInt8.ofNat
  | s => (hexByte 0 s).map UInt8.ofNat

@[simp] theorem len_nil : len [] = 0 := rfl

@[simp] theorem len_cons (c : Char) (s : List Char) : len (c :: s) = c.utf8Size + len s := rfl

@[simp] theorem len_append (s t : List Char) : len (s ++ t) = len s + len t := by
  simp [len]

theorem hexDigit_cases {c : Char} {d : ℕ} (h : hexDigit c = some d) :
    (48 ≤ c.toNat ∧ c.toNat ≤ 57 ∧ d = c.toNat - 48) ∨ (97 ≤ c.toNat ∧ c.toNat ≤ 102 ∧ d = c.toNat - 87) ∨
      (65 ≤ c.toNat ∧ c.toNat ≤ 70 ∧ d = c.toNat - 55) := by
  rw [hexDigit] at h
  split at h
  · rename_i hc
    cases h
    exact .inl ⟨hc.1,hc.2,rfl⟩
  · split at h
    · rename_i hc
      cases h
      exact .inr (.inl ⟨hc.1,hc.2,rfl⟩)
    · split at h
      · rename_i hc
        cases h
        exact .inr (.inr ⟨hc.1,hc.2,rfl⟩)
      · cases h

/-- A hexadecimal digit is below sixteen, one byte long, and no sign or separator. -/
theorem hexDigit_eq_some {c : Char} {d : ℕ} (h : hexDigit c = some d) :
    d < 16 ∧ c.utf8Size = 1 ∧ c ≠ '+' ∧ c ≠ ':' := by
  have hc := hexDigit_cases h
  have hlt : c.toNat < 128 := by omega
  refine ⟨by omega,?_,?_,?_⟩
  · rw [Char.utf8Size_eq_one_iff]
    exact UInt32.le_iff_toNat_le.mpr (Nat.le_of_lt_succ hlt)
  · rintro rfl
    simp at hc
  · rintro rfl
    simp at hc

theorem byteFromStrRadix_pair {a b : Char} {m n : ℕ} (ha : hexDigit a = some m) (hb : hexDigit b = some n) :
    byteFromStrRadix [a,b] = some (UInt8.ofNat (16*m + n)) := by
  obtain ⟨hm,-,hplus,-⟩ := hexDigit_eq_some ha
  obtain ⟨hn,-⟩ := hexDigit_eq_some hb
  have hbyte : hexByte 0 [a,b] = some (16*m + n) := by
    simp only [hexByte,ha,hb]
    rw [if_pos (by omega),if_pos (by omega)]
    congr 1
    omega
  rw [byteFromStrRadix,hbyte]
  · rfl
  · simp
  · simp
  · intro s h
    exact hplus (List.cons.inj h).1

/-- Text of one byte a character. -/
def Ascii (s : List Char) : Prop := ∀ c ∈ s, c.utf8Size = 1

theorem Ascii.len {s : List Char} (h : Ascii s) : len s = s.length := by
  induction s with
  | nil => rfl
  | cons c s ih =>
    rw [len_cons,h c (by simp),ih fun d hd => h d (by simp [hd]),List.length_cons]
    omega

theorem Ascii.dropBytes {s : List Char} (h : Ascii s) {n : ℕ} (hn : n ≤ s.length) :
    dropBytes s n = some (s.drop n) := by
  induction s generalizing n with
  | nil =>
    cases n with
    | zero => rfl
    | succ n => cases hn
  | cons c s ih =>
    cases n with
    | zero => rfl
    | succ n =>
      have hc := h c (by simp)
      rw [Text.dropBytes,if_pos (by omega),hc]
      exact ih (fun d hd => h d (by simp [hd])) (by simpa using hn)

theorem Ascii.takeBytes {s : List Char} (h : Ascii s) {n : ℕ} (hn : n ≤ s.length) :
    takeBytes s n = some (s.take n) := by
  induction s generalizing n with
  | nil =>
    cases n with
    | zero => rfl
    | succ n => cases hn
  | cons c s ih =>
    cases n with
    | zero => rfl
    | succ n =>
      have hc := h c (by simp)
      rw [Text.takeBytes,if_pos (by omega),hc,Nat.add_sub_cancel,
        ih (fun d hd => h d (by simp [hd])) (by simpa using hn)]
      rfl

theorem Ascii.get {s : List Char} (h : Ascii s) {i n : ℕ} (hn : i + n ≤ s.length) :
    get s i (i + n) = some ((s.drop i).take n) := by
  have hdrop : Ascii (s.drop i) := fun c hc => h c (List.mem_of_mem_drop hc)
  rw [Text.get,if_pos (by omega),h.dropBytes (by omega),Option.bind_some,Nat.add_sub_cancel_left]
  exact hdrop.takeBytes (by simp; omega)

end Tailnet.Text
