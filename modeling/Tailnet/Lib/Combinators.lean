import Mathlib

/-! Parser combinators over text. A parser returns the text it leaves and what it made of the rest. The
combinators are parameters, with their documented behaviour as laws. -/
namespace Tailnet.Combinators

/-- The part of a parser that gave up. -/
inductive ErrorKind
  | char
  | isNot
  | tag
  | mapRes
  | mapOpt
  deriving DecidableEq, Repr

structure Error where
  input : List Char
  code : ErrorKind
  deriving DecidableEq, Repr

abbrev Parser (α : Type) := List Char → Except Error (List Char × α)

structure Kit where
  char : Char → Parser Char
  /-- as many characters as there are outside of a set, at least one -/
  isNot : List Char → Parser (List Char)
  tag : List Char → Parser (List Char)
  rest : Parser (List Char)
  alt : {α : Type} → List (Parser α) → Parser α
  value : {α β : Type} → α → Parser β → Parser α
  map : {α β : Type} → Parser α → (α → β) → Parser β
  mapRes : {α β : Type} → Parser α → (α → Option β) → Parser β
  mapOpt : {α β : Type} → Parser α → (α → Option β) → Parser β
  separatedPair : {α β γ : Type} → Parser α → Parser β → Parser γ → Parser (α × γ)
  preceded : {α β : Type} → Parser α → Parser β → Parser β

/-- A result that a function refines or refuses. -/
def refine {α β : Type} (code : ErrorKind) (s : List Char) (f : α → Option β) :
    Except Error (List Char × α) → Except Error (List Char × β)
  | .error e => .error e
  | .ok (left,a) =>
    match f a with
    | some b => .ok (left,b)
    | none => .error ⟨s,code⟩

/-- What the documentation of the combinators says. -/
structure Kit.Documented (kit : Kit) : Prop where
  char : ∀ c s, kit.char c s = match s with
    | [] => .error ⟨s,.char⟩
    | d :: left => if c = d then .ok (left,c) else .error ⟨s,.char⟩
  isNot : ∀ cs s, kit.isNot cs s =
    if s.takeWhile (· ∉ cs) = [] then .error ⟨s,.isNot⟩
    else .ok (s.dropWhile (· ∉ cs),s.takeWhile (· ∉ cs))
  tag : ∀ t s, kit.tag t s = if t <+: s then .ok (s.drop t.length,t) else .error ⟨s,.tag⟩
  rest : ∀ s, kit.rest s = .ok ([],s)
  /-- the first parser that succeeds, or the error of the last one -/
  alt_one : ∀ {α : Type} (p : Parser α) s, kit.alt [p] s = p s
  alt_ok : ∀ {α : Type} (p : Parser α) ps s r, p s = .ok r → kit.alt (p :: ps) s = .ok r
  alt_error : ∀ {α : Type} (p q : Parser α) ps s e, p s = .error e →
    kit.alt (p :: q :: ps) s = kit.alt (q :: ps) s
  value : ∀ {α β : Type} (a : α) (p : Parser β) s, kit.value a p s = (p s).map fun r => (r.1,a)
  map : ∀ {α β : Type} (p : Parser α) (f : α → β) s, kit.map p f s = (p s).map fun r => (r.1,f r.2)
  mapRes : ∀ {α β : Type} (p : Parser α) (f : α → Option β) s,
    kit.mapRes p f s = refine .mapRes s f (p s)
  mapOpt : ∀ {α β : Type} (p : Parser α) (f : α → Option β) s,
    kit.mapOpt p f s = refine .mapOpt s f (p s)
  separatedPair : ∀ {α β γ : Type} (p : Parser α) (q : Parser β) (r : Parser γ) s,
    kit.separatedPair p q r s = (p s).bind fun x => (q x.1).bind fun y => (r y.1).map fun z => (z.1,(x.2,z.2))
  preceded : ∀ {α β : Type} (p : Parser α) (q : Parser β) s,
    kit.preceded p q s = (p s).bind fun x => q x.1

section
variable {α β ε : Type}

theorem map_eq_ok {x : Except ε α} {f : α → β} {b : β} (h : x.map f = .ok b) : ∃ a, x = .ok a ∧ f a = b := by
  cases x with
  | error e => cases h
  | ok a => exact ⟨a,rfl,Except.ok.inj h⟩

theorem bind_eq_ok {x : Except ε α} {f : α → Except ε β} {b : β} (h : x.bind f = .ok b) :
    ∃ a, x = .ok a ∧ f a = .ok b := by
  cases x with
  | error e => cases h
  | ok a => exact ⟨a,rfl,h⟩

theorem refine_eq_ok {code : ErrorKind} {s left : List Char} {f : α → Option β}
    {x : Except Error (List Char × α)} {b : β} (h : refine code s f x = .ok (left,b)) :
    ∃ a, x = .ok (left,a) ∧ f a = some b := by
  cases x with
  | error e => cases h
  | ok r =>
    rw [refine] at h
    split at h
    · rename_i b' hf
      cases h
      exact ⟨r.2,rfl,hf⟩
    · cases h

theorem Kit.Documented.char_eq_ok {kit : Kit} (hk : kit.Documented) {c d : Char} {s left : List Char}
    (h : kit.char c s = .ok (left,d)) : s = c :: left := by
  rw [hk.char] at h
  cases s with
  | nil => cases h
  | cons e s =>
    simp only at h
    split at h
    · rename_i he
      cases h
      rw [he]
    · cases h

theorem Kit.Documented.isNot_eq_ok {kit : Kit} (hk : kit.Documented) {cs s left t : List Char}
    (h : kit.isNot cs s = .ok (left,t)) : s = t ++ left := by
  rw [hk.isNot] at h
  split at h
  · cases h
  · cases h
    exact List.takeWhile_append_dropWhile.symm

end

def firstOf {α : Type} : List (Parser α) → Parser α
  | [],s => .error ⟨s,.tag⟩
  | [p],s => p s
  | p :: q :: ps,s =>
    match p s with
    | .ok r => .ok r
    | .error _ => firstOf (q :: ps) s

def plain : Kit where
  char c s := match s with
    | [] => .error ⟨s,.char⟩
    | d :: left => if c = d then .ok (left,c) else .error ⟨s,.char⟩
  isNot cs s :=
    if s.takeWhile (· ∉ cs) = [] then .error ⟨s,.isNot⟩
    else .ok (s.dropWhile (· ∉ cs),s.takeWhile (· ∉ cs))
  tag t s := if t <+: s then .ok (s.drop t.length,t) else .error ⟨s,.tag⟩
  rest s := .ok ([],s)
  alt := firstOf
  value a p s := (p s).map fun r => (r.1,a)
  map p f s := (p s).map fun r => (r.1,f r.2)
  mapRes p f s := refine .mapRes s f (p s)
  mapOpt p f s := refine .mapOpt s f (p s)
  separatedPair p q r s :=
    (p s).bind fun x => (q x.1).bind fun y => (r y.1).map fun z => (z.1,(x.2,z.2))
  preceded p q s := (p s).bind fun x => q x.1

theorem plain_documented : plain.Documented where
  char _ _ := rfl
  isNot _ _ := rfl
  tag _ _ := rfl
  rest _ := rfl
  alt_one _ _ := rfl
  alt_ok p ps s r h := by
    cases ps with
    | nil => exact h
    | cons q ps => simp only [plain,firstOf,h]
  alt_error p q ps s e h := by simp only [plain,firstOf,h]
  value _ _ _ := rfl
  map _ _ _ := rfl
  mapRes _ _ _ := rfl
  mapOpt _ _ _ := rfl
  separatedPair _ _ _ _ := rfl
  preceded _ _ _ := rfl

end Tailnet.Combinators
