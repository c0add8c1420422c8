import Tailnet.Net
import Tailnet.Lib.Combinators

/-! Ranges of addresses as they are written in filter rules: an asterisk, an address, a network, or two
addresses with a hyphen. -/
namespace Tailnet.PacketFilter
open Combinators List

/-- Addresses in order, those of the fourth version first. -/
def leAddr (a b : IpAddr) : Bool :=
  match a.family,b.family with
  | .v4,.v6 => true
  | .v6,.v4 => false
  | _,_ => decide (a.octets ≤ b.octets)

theorem leAddr_of_family {a b : IpAddr} (h : a.family = b.family) :
    leAddr a b = true ↔ a.octets ≤ b.octets := by
  cases ha : a.family <;> cases hb : b.family <;> simp_all [leAddr]

theorem family_of_leAddr {a ip b : IpAddr} (h : a.family = b.family) (hl : leAddr a ip = true)
    (hr : leAddr ip b = true) : ip.family = a.family := by
  cases ha : a.family <;> cases hi : ip.family <;> cases hb : b.family <;> simp_all [leAddr]

/-- The texts of addresses and of networks, and the network of one address. -/
structure AddrText where
  addr : List Char → Option IpAddr
  net : List Char → Option IpNet
  host : IpAddr → IpNet

/-- A network is written with a slash, an address without; neither has a hyphen or an asterisk. -/
structure AddrText.Documented (text : AddrText) : Prop where
  addr : ∀ s a, text.addr s = some a → s ≠ [] ∧ '-' ∉ s ∧ '/' ∉ s ∧ '*' ∉ s
  net : ∀ s n, text.net s = some n → '-' ∉ s ∧ '/' ∈ s ∧ '*' ∉ s
  host_addr : ∀ a, (text.host a).addr = a
  host_prefixLen : ∀ a, (text.host a).prefixLen = 8*a.octets.length

inductive IpRange
  | wildcard
  | net (n : IpNet)
  | range (first last : IpAddr)
  deriving DecidableEq

section
variable (kit : Kit) (text : AddrText)

def parseWildcard : Parser IpRange := kit.value .wildcard (kit.char '*')

def parseRange : Parser IpRange :=
  let pair := kit.separatedPair (kit.mapRes (kit.isNot ['-']) text.addr) (kit.char '-')
    (kit.mapRes kit.rest text.addr)
  let same := kit.mapOpt pair fun p => if p.1.isIpv4 = p.2.isIpv4 then some p else none
  kit.map same fun p => .range p.1 p.2

/-- What is written: every address, one of them, those of a network, or those between two. -/
inductive Selector
  | all
  | addr (a : IpAddr)
  | net (n : IpNet)
  | span (first last : IpAddr)

def Selector.denotes : Selector → Set IpAddr
  | all => Set.univ
  | addr a => {a}
  | net n => {ip | ip.family = n.addr.family ∧ ∀ k < n.prefixLen, ip.bit k = n.addr.bit k}
  | span first last =>
    {ip | ip.family = first.family ∧ first.octets ≤ ip.octets ∧ ip.octets ≤ last.octets}

inductive Spells : Selector → List Char → Prop
  | all : Spells .all ['*']
  | addr {s : List Char} {a : IpAddr} (h : text.addr s = some a) : Spells (.addr a) s
  | net {s : List Char} {n : IpNet} (h : text.net s = some n) : Spells (.net n) s
  | span {s t : List Char} {first last : IpAddr} (hs : text.addr s = some first)
      (ht : text.addr t = some last) (same : first.family = last.family) :
      Spells (.span first last) (s ++ '-' :: t)

variable {kit text}

theorem mem_denotes_host (ht : text.Documented) {a ip : IpAddr} :
    ip ∈ (Selector.net (text.host a)).denotes ↔ ip ∈ (Selector.addr a).denotes := by
  simp only [Selector.denotes,ht.host_addr,ht.host_prefixLen,Set.mem_ofPred_eq,Set.mem_singleton_iff]
  constructor
  · rintro ⟨hf,h⟩
    apply IpAddr.ext_bit hf
    intro k
    by_cases hk : k < 8*a.octets.length
    · exact h k hk
    · have hlen : ip.octets.length = a.octets.length := by rw [ip.length_octets,a.length_octets,hf]
      rw [IpAddr.bit,IpAddr.bit,bitAt,bitAt,getD_eq_default _ _ (by omega),
        getD_eq_default _ _ (by omega)]
  · rintro rfl
    simp

theorem parseWildcard_cons (hk : kit.Documented) (s : List Char) :
    parseWildcard kit ('*' :: s) = .ok (s,.wildcard) := by
  rw [parseWildcard,hk.value,hk.char]
  rfl

variable {s : List Char}

theorem parseWildcard_error (hk : kit.Documented) (h : s.head? ≠ some '*') :
    ∃ e, parseWildcard kit s = .error e := by
  rw [parseWildcard,hk.value,hk.char]
  cases s with
  | nil => exact ⟨_,rfl⟩
  | cons c s =>
    have hc : '*' ≠ c := by
      rintro rfl
      exact h rfl
    simp only [if_neg hc]
    exact ⟨_,rfl⟩

theorem isIpv4_eq_iff {a b : IpAddr} : a.isIpv4 = b.isIpv4 ↔ a.family = b.family := by
  cases ha : a.family <;> cases hb : b.family <;> simp [IpAddr.isIpv4,ha,hb]

theorem takeWhile_hyphen {s t : List Char} (h : '-' ∉ s) :
    (s ++ '-' :: t).takeWhile (· ∉ ['-']) = s ∧ (s ++ '-' :: t).dropWhile (· ∉ ['-']) = '-' :: t := by
  have hp : ∀ c ∈ s, decide (c ∉ ['-']) = true := by
    intro c hc
    simp only [mem_singleton,decide_not,Bool.not_eq_eq_eq_not,Bool.not_true,decide_eq_false_iff_not]
    rintro rfl
    exact h hc
  constructor
  · rw [takeWhile_append_of_pos hp]
    simp
  · rw [dropWhile_append_of_pos hp]
    simp

theorem parseRange_ok (hk : kit.Documented) (ht : text.Documented) {s t : List Char} {first last : IpAddr}
    (hs : text.addr s = some first) (hl : text.addr t = some last) (same : first.family = last.family) :
    parseRange kit text (s ++ '-' :: t) = .ok ([],.range first last) := by
  obtain ⟨hne,hyphen,-⟩ := ht.addr _ _ hs
  obtain ⟨htake,hdrop⟩ := takeWhile_hyphen (t := t) hyphen
  simp only [parseRange,hk.map,hk.mapOpt,hk.separatedPair,hk.mapRes,hk.isNot,htake,hdrop,if_neg hne]
  simp [refine,hs,hl,Except.bind,Except.map,hk.char,hk.rest,isIpv4_eq_iff.mpr same]

theorem parseRange_eq_ok (hk : kit.Documented) {s left : List Char} {v : IpRange}
    (h : parseRange kit text s = .ok (left,v)) :
    ∃ first last, Spells text (.span first last) s ∧ left = [] ∧ v = .range first last := by
  rw [parseRange,hk.map,hk.mapOpt,hk.separatedPair] at h
  obtain ⟨⟨left',x⟩,hsameOk,hv⟩ := map_eq_ok h
  cases hv
  obtain ⟨⟨first,last⟩,hpair,hsame⟩ := refine_eq_ok hsameOk
  obtain ⟨⟨s1,first'⟩,hfirst,hafter⟩ := bind_eq_ok hpair
  obtain ⟨⟨s2,c⟩,hchar,hafter⟩ := bind_eq_ok hafter
  obtain ⟨⟨s3,last'⟩,hlast,hboth⟩ := map_eq_ok hafter
  cases hboth
  rw [hk.mapRes] at hfirst hlast
  obtain ⟨t,ht,hfirst⟩ := refine_eq_ok hfirst
  obtain ⟨u,hu,hlast⟩ := refine_eq_ok hlast
  rw [hk.rest] at hu
  cases hu
  have hs := hk.isNot_eq_ok ht
  have hs1 : s1 = '-' :: s2 := hk.char_eq_ok hchar
  rw [hs1] at hs
  split at hsame
  · rename_i hfam
    cases hsame
    rw [hs]
    exact ⟨_,_,.span hfirst hlast (isIpv4_eq_iff.mp hfam),rfl,rfl⟩
  · cases hsame

theorem head_ne_star (h : '*' ∉ s) : s.head? ≠ some '*' :=
  fun hs => h (mem_of_mem_head? (by simp [hs]))

theorem parseRange_error (hk : kit.Documented) (h : '-' ∉ s) :
    ∃ e, parseRange kit text s = .error e := by
  cases hr : parseRange kit text s with
  | error e => exact ⟨e,rfl⟩
  | ok r =>
    obtain ⟨first,last,hs,-⟩ := parseRange_eq_ok hk hr
    cases hs
    simp at h

variable [IpNetOps]

def IpRange.contains : IpRange → IpAddr → Bool
  | wildcard,_ => true
  | net n,ip => n.contains ip
  | range first last,ip => leAddr first ip && leAddr ip last

variable (kit text)

def parsePrefix : Parser IpRange :=
  let net := kit.alt [kit.mapRes kit.rest text.net,kit.map (kit.mapRes kit.rest text.addr) text.host]
  kit.map net fun n => .net n.trunc

def IpRange.parser : Parser IpRange :=
  kit.alt [parseWildcard kit,parseRange kit text,parsePrefix kit text]

/-- The check that nothing is left is made in debug builds only. -/
def IpRange.tryFrom (debug : Bool) (s : String) : Result (Except Error IpRange) :=
  match IpRange.parser kit text s.toList with
  | .error e => .ok (.error e)
  | .ok (left,val) => do
    if debug then Result.assert left.isEmpty
    return .ok val

def Selector.toRange : Selector → IpRange
  | all => .wildcard
  | addr a => .net (text.host a).trunc
  | net n => .net n.trunc
  | span first last => .range first last

variable {kit text}

theorem contains_trunc_iff {n : IpNet} {ip : IpAddr} :
    n.trunc.contains ip = true ↔ ip ∈ (Selector.net n).denotes := by
  rw [IpNet.contains_trunc,IpNet.contains,IpNetOps.contains_iff]
  constructor
  · rintro ⟨hf,h⟩
    exact ⟨hf.symm,fun k hk => (h k hk).symm⟩
  · rintro ⟨hf,h⟩
    exact ⟨hf.symm,fun k hk => (h k hk).symm⟩

/-- The range of a text has the addresses that are meant. -/
theorem contains_toRange (ht : text.Documented) {sel : Selector} (h : Spells text sel s)
    (ip : IpAddr) : (sel.toRange text).contains ip = true ↔ ip ∈ sel.denotes := by
  cases h with
  | all => simp [Selector.toRange,Selector.denotes,IpRange.contains]
  | addr h => exact contains_trunc_iff.trans (mem_denotes_host ht)
  | net h => exact contains_trunc_iff
  | span hs ht' same =>
    simp only [Selector.toRange,Selector.denotes,IpRange.contains,Bool.and_eq_true,Set.mem_ofPred_eq]
    constructor
    · rintro ⟨hl,hr⟩
      have hf := family_of_leAddr same hl hr
      exact ⟨hf,(leAddr_of_family hf.symm).mp hl,(leAddr_of_family (hf.trans same)).mp hr⟩
    · rintro ⟨hf,hl,hr⟩
      exact ⟨(leAddr_of_family hf.symm).mpr hl,(leAddr_of_family (hf.trans same)).mpr hr⟩

theorem parsePrefix_eq (hk : kit.Documented) (s : List Char) :
    parsePrefix kit text s = match text.net s with
      | some n => .ok ([],.net n.trunc)
      | none => match text.addr s with
        | some a => .ok ([],.net (text.host a).trunc)
        | none => .error ⟨s,.mapRes⟩ := by
  rw [parsePrefix,hk.map]
  have hnet : kit.mapRes kit.rest text.net s = refine .mapRes s text.net (.ok ([],s)) := by
    rw [hk.mapRes,hk.rest]
  cases hn : text.net s with
  | some n =>
    have hok : kit.mapRes kit.rest text.net s = .ok ([],n) := by rw [hnet,refine,hn]
    rw [hk.alt_ok _ _ _ _ hok]
    rfl
  | none =>
    have herr : kit.mapRes kit.rest text.net s = .error ⟨s,.mapRes⟩ := by rw [hnet,refine,hn]
    rw [hk.alt_error _ _ _ _ _ herr,hk.alt_one,hk.map,hk.mapRes,hk.rest,refine]
    cases text.addr s <;> rfl

/-- Without an asterisk in front the text is a range, or else a network or an address. -/
theorem parser_eq (hk : kit.Documented) (h : s.head? ≠ some '*') :
    IpRange.parser kit text s = match parseRange kit text s with
      | .ok r => .ok r
      | .error _ => parsePrefix kit text s := by
  obtain ⟨e,he⟩ := parseWildcard_error hk h
  rw [IpRange.parser,hk.alt_error _ _ _ _ _ he]
  cases hr : parseRange kit text s with
  | ok r => exact hk.alt_ok _ _ _ _ hr
  | error e => rw [hk.alt_error _ _ _ _ _ hr,hk.alt_one]

/-- What is spelled is parsed, with nothing left. -/
theorem parser_of_spells (hk : kit.Documented) (ht : text.Documented) {sel : Selector}
    (h : Spells text sel s) : IpRange.parser kit text s = .ok ([],sel.toRange text) := by
  cases h with
  | all => exact hk.alt_ok _ _ _ _ (parseWildcard_cons hk [])
  | addr h =>
    obtain ⟨-,hyphen,slash,star⟩ := ht.addr _ _ h
    obtain ⟨e,he⟩ : ∃ e, parseRange kit text s = .error e := parseRange_error hk hyphen
    have hnet : text.net s = none := by
      cases hn : text.net s with
      | none => rfl
      | some n => exact absurd (ht.net _ _ hn).2.1 slash
    rw [parser_eq hk (head_ne_star star),he]
    simp only [parsePrefix_eq hk,hnet,h]
    rfl
  | net h =>
    obtain ⟨hyphen,-,star⟩ := ht.net _ _ h
    obtain ⟨e,he⟩ : ∃ e, parseRange kit text s = .error e := parseRange_error hk hyphen
    rw [parser_eq hk (head_ne_star star),he]
    simp only [parsePrefix_eq hk,h]
    rfl
  | @span s t first last hs hl same =>
    obtain ⟨hne,-,-,star⟩ := ht.addr _ _ hs
    have hhead : (s ++ '-' :: t).head? ≠ some '*' := by
      rw [List.head?_append_of_ne_nil _ hne]
      exact head_ne_star star
    rw [parser_eq hk hhead,parseRange_ok hk ht hs hl same]
    rfl

/-- Without an asterisk in front nothing else is parsed. -/
theorem spells_of_accepted (hk : kit.Documented) {s left : List Char} {v : IpRange}
    (hstar : s.head? ≠ some '*') (h : IpRange.parser kit text s = .ok (left,v)) :
    left = [] ∧ ∃ sel, Spells text sel s := by
  rw [parser_eq hk hstar] at h
  split at h
  · rename_i r hr
    cases h
    obtain ⟨first,last,hs,hleft,-⟩ := parseRange_eq_ok hk hr
    exact ⟨hleft,_,hs⟩
  · rw [parsePrefix_eq hk] at h
    split at h
    · rename_i n hn
      cases h
      exact ⟨rfl,_,.net hn⟩
    · split at h
      · rename_i a ha
        cases h
        exact ⟨rfl,_,.addr ha⟩
      · cases h

variable (kit text)

/-- On one text the parser returns, in debug builds and in others, accepts just what the grammar has, and
makes of it a range of the addresses that are meant. -/
def ParsesExactly (s : String) : Prop :=
  ∀ debug, ∃ r, IpRange.tryFrom kit text debug s = .ok r ∧
    ((∃ v, r = .ok v) ↔ ∃ sel, Spells text sel s.toList) ∧
    ∀ v sel, r = .ok v → Spells text sel s.toList → ∀ ip, v.contains ip = true ↔ ip ∈ sel.denotes

variable {kit text}

theorem parsesExactly_of_spells (hk : kit.Documented) (ht : text.Documented) {s : String} {sel : Selector}
    (h : Spells text sel s.toList) : ParsesExactly kit text s := by
  intro debug
  have hp := parser_of_spells hk ht h
  refine ⟨.ok (sel.toRange text),?_,⟨fun _ => ⟨sel,h⟩,fun _ => ⟨_,rfl⟩⟩,?_⟩
  · rw [IpRange.tryFrom,hp]
    cases debug <;> rfl
  · rintro v sel' hv h' ip
    cases hv
    have hp' := parser_of_spells hk ht h'
    have heq : sel.toRange text = sel'.toRange text := by
      rw [hp] at hp'
      exact (Prod.mk.inj (Except.ok.inj hp')).2
    rw [heq]
    exact contains_toRange ht h' ip

/-- The parser is exact for just the texts that have nothing behind an asterisk in front. -/
theorem tryFrom_exact_iff (hk : kit.Documented) (ht : text.Documented) (s : String) :
    ParsesExactly kit text s ↔ (s.toList.head? = some '*' → s = "*") := by
  constructor
  · intro h hstar
    obtain ⟨c,hc⟩ : ∃ left, s.toList = '*' :: left := by
      cases hs : s.toList with
      | nil => simp [hs] at hstar
      | cons c left =>
        have : c = '*' := by simpa [hs] using hstar
        exact ⟨left,by rw [this]⟩
    -- the wildcard is accepted in builds without the check, so the grammar has to have the text
    obtain ⟨r,hr,hiff,-⟩ := h false
    have hp : IpRange.parser kit text s.toList = .ok (c,.wildcard) := by
      rw [hc]
      exact hk.alt_ok _ _ _ _ (parseWildcard_cons hk c)
    rw [IpRange.tryFrom,hp] at hr
    cases hr
    obtain ⟨sel,hsel⟩ := hiff.mp ⟨_,rfl⟩
    have hleft := parser_of_spells hk ht hsel
    rw [hp] at hleft
    have hnil : c = [] := (Prod.mk.inj (Except.ok.inj hleft)).1
    apply String.toList_injective
    rw [hc,hnil]
    rfl
  · intro h
    by_cases hsel : ∃ sel, Spells text sel s.toList
    · obtain ⟨sel,hsel⟩ := hsel
      exact parsesExactly_of_spells hk ht hsel
    · have hstar : s.toList.head? ≠ some '*' := by
        intro hh
        exact hsel ⟨.all,by rw [h hh]; exact .all⟩
      intro debug
      cases hp : IpRange.parser kit text s.toList with
      | ok r => exact absurd (spells_of_accepted hk hstar hp).2 hsel
      | error e =>
        refine ⟨.error e,by rw [IpRange.tryFrom,hp],⟨?_,fun h => absurd h hsel⟩,?_⟩
        · rintro ⟨v,hv⟩
          cases hv
        · intro v sel hv
          cases hv

/-- The source of a rule: a range of addresses, or a capability of the sender. -/
inductive SrcIp
  | ipRange (range : IpRange)
  | nodeCap (cap : List Char)
  deriving DecidableEq

variable (kit text)

def parseCap : Parser SrcIp := kit.map (kit.preceded (kit.tag "cap:".toList) kit.rest) .nodeCap

def SrcIp.parser : Parser SrcIp := kit.alt [kit.map (IpRange.parser kit text) .ipRange,parseCap kit]

def SrcIp.tryFrom (debug : Bool) (s : String) : Result (Except Error SrcIp) :=
  match SrcIp.parser kit text s.toList with
  | .error e => .ok (.error e)
  | .ok (left,val) => do
    if debug then Result.assert left.isEmpty
    return .ok val

variable {kit text}

/-- A source is what the parser of ranges makes of it, or else a capability. -/
theorem SrcIp.tryFrom_eq (hk : kit.Documented) (debug : Bool) (s : String) :
    SrcIp.tryFrom kit text debug s = do
      match ← IpRange.tryFrom kit text debug s with
      | .ok range => return .ok (.ipRange range)
      | .error _ =>
        if "cap:".toList <+: s.toList then return .ok (.nodeCap (s.toList.drop 4))
        else return .error ⟨s.toList,.tag⟩ := by
  have hmap := hk.map (IpRange.parser kit text) SrcIp.ipRange s.toList
  rw [SrcIp.tryFrom,SrcIp.parser,IpRange.tryFrom]
  cases hr : IpRange.parser kit text s.toList with
  | ok r =>
    obtain ⟨left,range⟩ := r
    rw [hr] at hmap
    rw [hk.alt_ok _ _ _ _ hmap]
    cases debug with
    | false => rfl
    | true => cases left <;> rfl
  | error e =>
    rw [hr] at hmap
    rw [hk.alt_error _ _ _ _ _ hmap,hk.alt_one,parseCap,hk.map,hk.preceded,hk.tag]
    by_cases hcap : "cap:".toList <+: s.toList
    · simp only [if_pos hcap,Except.bind,Except.map,hk.rest]
      cases debug <;> rfl
    · simp only [if_neg hcap]
      rfl

end

/-- Two addresses, one of their networks, and nothing else. -/
def twoTexts : AddrText where
  addr s :=
    if s = "1.2.3.4".toList then some ⟨.v4,[1,2,3,4],rfl⟩
    else if s = "1.2.3.9".toList then some ⟨.v4,[1,2,3,9],rfl⟩
    else none
  net s := if s = "1.2.3.4/24".toList then some ⟨⟨.v4,[1,2,3,4],rfl⟩,24,by decide⟩ else none
  host := .host

theorem twoTexts_documented : twoTexts.Documented where
  addr s a h := by
    simp only [twoTexts] at h
    split at h
    · rename_i hs
      subst hs
      decide
    · split at h
      · rename_i hs
        subst hs
        decide
      · cases h
  net s n h := by
    simp only [twoTexts] at h
    split at h
    · rename_i hs
      subst hs
      decide
    · cases h
  host_addr _ := rfl
  host_prefixLen _ := rfl

theorem tryFrom_exact_iff_span :
    plain.Documented ∧ twoTexts.Documented ∧ @ParsesExactly plain twoTexts maskOps "1.2.3.4-1.2.3.9" ∧
      Spells twoTexts (.span ⟨.v4,[1,2,3,4],rfl⟩ ⟨.v4,[1,2,3,9],rfl⟩) "1.2.3.4-1.2.3.9".toList :=
  ⟨plain_documented,twoTexts_documented,
    (@tryFrom_exact_iff _ _ maskOps plain_documented twoTexts_documented _).mpr (by decide),
    @Spells.span twoTexts "1.2.3.4".toList "1.2.3.9".toList _ _ (by decide) (by decide) rfl⟩

/-- Text behind an asterisk stops the parser in debug builds, and is taken for the wildcard in others. -/
theorem star_tail_accepted :
    ¬@ParsesExactly plain twoTexts maskOps "*.example" ∧
    @IpRange.tryFrom plain twoTexts maskOps true "*.example" = .error .assertion ∧
    @IpRange.tryFrom plain twoTexts maskOps false "*.example" = .ok (.ok .wildcard) := by
  have hdebug : @IpRange.tryFrom plain twoTexts maskOps true "*.example" = .error .assertion := rfl
  refine ⟨?_,hdebug,rfl⟩
  intro h
  obtain ⟨r,hr,-⟩ := h true
  rw [hdebug] at hr
  cases hr

end Tailnet.PacketFilter
