import Tailnet.PacketFilter.BartFilter

/-! The indexed filter against the map filter under the same calls. The indexed filter looks only under the
longest source prefix that contains the source and takes a range of all ports but one for all ports; the
answers are the same for the packets where neither matters. -/
namespace Tailnet.PacketFilter
variable {Name Cap : Type} [LinearOrder Name] [LinearOrder Cap]

def MapFilter.step (m : MapFilter Name Cap) : BartFilter.Op Name Cap → MapFilter Name Cap
  | .insert name ruleset => m.insert name ruleset
  | .remove name => m.erase name
  | .clear => .empty

def MapFilter.run (ops : List (BartFilter.Op Name Cap)) : MapFilter Name Cap := ops.foldl MapFilter.step .empty

/-- A rule of a stored ruleset. -/
def MapFilter.Live (m : MapFilter Name Cap) (rule : Rule Cap) : Prop := ∃ name rules, m.get name = some rules ∧ rule ∈ rules

section
variable [IpNetOps] {m : MapFilter Name Cap} {s : BartFilter Name Cap} {info : PacketInfo} {caps : List Cap}

/-- A rule has one of the capabilities or lists a prefix that contains the address and that is as long as any
live prefix that does. -/
def MapFilter.Foremost (m : MapFilter Name Cap) (ip : IpAddr) (caps : List Cap) (rule : Rule Cap) : Prop :=
  (∃ cap ∈ caps, cap ∈ rule.src.caps) ∨ ∃ p ∈ rule.src.pfxs, p.contains ip = true ∧
    ∀ rule', m.Live rule' → ∀ q ∈ rule'.src.pfxs, q.contains ip = true → q.prefixLen ≤ p.prefixLen

/-- A destination of the address whose ports are all but one. -/
def DstMatch.NearlyAll (d : DstMatch) (ip : IpAddr) : Prop := d.ports.nearlyAll = true ∧ ∃ p ∈ d.ips, p.contains ip = true

/-- A packet for which neither the longest source prefix nor a range of all ports but one decides. -/
structure MapFilter.Plain (m : MapFilter Name Cap) (info : PacketInfo) (caps : List Cap) : Prop where
  /-- Where a rule matches, some rule for the protocol and the destination is foremost. -/
  sources : ∀ rule, m.Live rule → rule.matches info caps = true → ∃ rule', m.Live rule' ∧ m.Foremost info.src caps rule' ∧
    info.ipProto ∈ rule'.protos ∧ ∃ d ∈ rule'.dst, d.matches info = true ∨ d.NearlyAll info.dst
  /-- Where a foremost rule has nearly all ports, some rule matches. -/
  ports : ∀ rule, m.Live rule → m.Foremost info.src caps rule → info.ipProto ∈ rule.protos →
    (∃ d ∈ rule.dst, d.NearlyAll info.dst) → ∃ rule', m.Live rule' ∧ rule'.matches info caps = true

/-- The indexed filter holds the rulesets of the map. -/
def MapFilter.Stores (s : BartFilter Name Cap) (m : MapFilter Name Cap) : Prop :=
  (∃ owner, BartFilter.Rep s owner) ∧ ∀ name, (s.rulesets.get name).map RulesetEntry.ruleset = m.get name

theorem MapFilter.step_stores (op : BartFilter.Op Name Cap) (h : MapFilter.Stores s m) :
    ∃ ids s', BartFilter.step op s = .ok (ids,s') ∧ MapFilter.Stores s' (m.step op) := by
  obtain ⟨⟨owner,hrep⟩,hsets⟩ := h
  cases op with
  | insert name ruleset =>
    obtain ⟨ids,f,owner',hrun,hrep',-,e,hget,he,-⟩ := hrep.insert name ruleset
    refine ⟨ids,f,hrun,⟨owner',hrep'⟩,fun name' => ?_⟩
    rw [hget,MapFilter.step,OrdMap.get_insert_eq]
    by_cases hn : name' = name
    · simp [hn,he]
    · simp [hn,hsets]
  | remove name =>
    obtain ⟨f,hrun,hrep',hget⟩ := hrep.remove name
    refine ⟨[],f,by simp [BartFilter.step,hrun],⟨_,hrep'⟩,fun name' => ?_⟩
    rw [hget,MapFilter.step,OrdMap.get_erase_eq]
    by_cases hn : name' = name
    · simp [hn]
    · simp [hn,hsets]
  | clear => exact ⟨[],.empty,rfl,⟨_,BartFilter.empty_rep⟩,fun name => by
      simp [MapFilter.step,BartFilter.empty,OrdMap.get_empty]⟩

theorem MapFilter.run_stores (ops : List (BartFilter.Op Name Cap)) :
    ∃ ids s, runAll BartFilter.step ops .empty = .ok (ids,s) ∧ MapFilter.Stores s (MapFilter.run ops) := by
  have hrun : ∀ (s : BartFilter Name Cap) m, MapFilter.Stores s m →
      ∃ ids s', runAll BartFilter.step ops s = .ok (ids,s') ∧ MapFilter.Stores s' (ops.foldl MapFilter.step m) := by
    induction ops with
    | nil => exact fun s m h => ⟨[],s,rfl,h⟩
    | cons op ops ih =>
      intro s m h
      obtain ⟨o,s1,hs1,h1⟩ := MapFilter.step_stores op h
      obtain ⟨os,s2,hs2,h2⟩ := ih s1 _ h1
      exact ⟨o::os,s2,by simp [runAll,hs1,hs2],h2⟩
  exact hrun _ _ ⟨⟨_,BartFilter.empty_rep⟩,fun name => by simp [BartFilter.empty,OrdMap.get_empty]⟩

/-- The rules of the map are those that have an id. -/
theorem MapFilter.live_iff {owner : ℕ → Option (Name × Rule Cap)} (h : BartFilter.Rep s owner)
    (hsets : ∀ name, (s.rulesets.get name).map RulesetEntry.ruleset = m.get name) (rule : Rule Cap) :
    m.Live rule ↔ ∃ i name, owner i = some (name,rule) := by
  simp only [MapFilter.Live,← hsets,Option.map_eq_some_iff,h.entries]
  constructor
  · rintro ⟨name,_,⟨e,he,rfl⟩,hmem⟩
    have hsnd : e.rulesAndIds.map Prod.snd = e.ruleset := List.map_snd_zip (h.lens name e he).ge
    rw [← hsnd] at hmem
    obtain ⟨⟨i,rule⟩,hzip,rfl⟩ := List.mem_map.mp hmem
    exact ⟨i,name,e,he,hzip⟩
  · rintro ⟨i,name,e,he,hmem⟩
    exact ⟨name,_,⟨e,he,rfl⟩,(List.of_mem_zip hmem).2⟩

theorem finds_iff (d : DstMatch) : DstMatchLookup.Finds d info.dst info.port ↔ d.matches info = true ∨ d.NearlyAll info.dst := by
  obtain ⟨l,hl,hmem⟩ := iterPrefixes_contains d.ports
  have hports : (∃ l, iterPrefixes d.ports = .ok l ∧ ∃ q ∈ l, q.contains info.port = true) ↔
      d.ports.nearlyAll = true ∨ d.ports.contains info.port = true := by
    rw [← hmem]
    constructor
    · rintro ⟨l',hl',hq⟩
      cases hl.symm.trans hl'
      exact hq
    · exact fun hq => ⟨l,hl,hq⟩
  rw [DstMatchLookup.Finds,hports,DstMatch.NearlyAll,DstMatch.matches,Bool.and_eq_true,List.any_eq_true]
  constructor
  · rintro ⟨hip,hn | hc⟩
    · exact .inr ⟨hn,hip⟩
    · exact .inl ⟨hc,hip⟩
  · rintro (⟨hc,hip⟩ | ⟨hn,hip⟩)
    · exact ⟨hip,.inr hc⟩
    · exact ⟨hip,.inl hn⟩

/-- What the indexed filter answers, in terms of the live rules. -/
theorem MapFilter.Stores.matches_bart (h : MapFilter.Stores s m) (info : PacketInfo) (caps : List Cap) :
    ∃ b, BartFilter.matches s info caps = .ok b ∧ (b = true ↔ ∃ rule, m.Live rule ∧ m.Foremost info.src caps rule ∧
      info.ipProto ∈ rule.protos ∧ ∃ d ∈ rule.dst, d.matches info = true ∨ d.NearlyAll info.dst) := by
  obtain ⟨⟨owner,hrep⟩,hsets⟩ := h
  have hlive := MapFilter.live_iff hrep hsets
  have hforemost : ∀ rule : Rule Cap, ((∃ cap ∈ caps, cap ∈ rule.src.caps) ∨
      ∃ p ∈ rule.src.pfxs, BartFilter.Longest owner info.src p) ↔ m.Foremost info.src caps rule := by
    intro rule
    refine or_congr_right (exists_congr fun p => and_congr_right fun _ => and_congr_right fun _ => ?_)
    constructor
    · intro hmax rule' hl
      obtain ⟨i,name,hi⟩ := (hlive rule').mp hl
      exact hmax i _ hi
    · intro hmax i x hi
      exact hmax x.2 ((hlive x.2).mpr ⟨i,x.1,hi⟩)
  obtain ⟨b,hb,hhits⟩ := hrep.indices.matches_spec info caps
  refine ⟨b,hb,hhits.trans ?_⟩
  simp only [BartFilter.Hits,hforemost,finds_iff]
  constructor
  · rintro ⟨i,x,hi,hx⟩
    exact ⟨x.2,(hlive x.2).mpr ⟨i,x.1,hi⟩,hx⟩
  · rintro ⟨rule,hl,hx⟩
    obtain ⟨i,name,hi⟩ := (hlive rule).mp hl
    exact ⟨i,_,hi,hx⟩

theorem Rule.matches_iff (rule : Rule Cap) : rule.matches info caps = true ↔ info.ipProto ∈ rule.protos ∧
    ((∃ p ∈ rule.src.pfxs, p.contains info.src = true) ∨ ∃ cap ∈ caps, cap ∈ rule.src.caps) ∧
    ∃ d ∈ rule.dst, d.matches info = true := by
  simp [Rule.matches,SrcMatch.matches,and_assoc]

/-- The two filters agree about a packet exactly if it is plain. -/
theorem MapFilter.Stores.agree_iff (h : MapFilter.Stores s m) (info : PacketInfo) (caps : List Cap) :
    BartFilter.matches s info caps = .ok (m.matches info caps) ↔ m.Plain info caps := by
  obtain ⟨b,hb,hbart⟩ := h.matches_bart info caps
  have hmap : m.matches info caps = true ↔ ∃ rule, m.Live rule ∧ rule.matches info caps = true := by
    rw [MapFilter.matches_iff]
    constructor
    · rintro ⟨name,rules,hg,rule,hr,hm⟩
      exact ⟨rule,⟨name,rules,hg,hr⟩,hm⟩
    · rintro ⟨rule,⟨name,rules,hg,hr⟩,hm⟩
      exact ⟨name,rules,hg,rule,hr,hm⟩
  rw [hb,Except.ok.injEq,Bool.eq_iff_iff,hbart,hmap]
  constructor
  · intro hiff
    exact ⟨fun rule hl hm => hiff.mpr ⟨rule,hl,hm⟩,fun rule hl hf hp ⟨d,hd,hn⟩ => hiff.mp ⟨rule,hl,hf,hp,d,hd,.inr hn⟩⟩
  · intro hplain
    constructor
    · rintro ⟨rule,hl,hf,hp,d,hd,hm | hn⟩
      · refine ⟨rule,hl,(Rule.matches_iff rule).mpr ⟨hp,?_,d,hd,hm⟩⟩
        rcases hf with hcap | ⟨p,hpm,hc,-⟩
        · exact .inr hcap
        · exact .inl ⟨p,hpm,hc⟩
      · exact hplain.ports rule hl hf hp ⟨d,hd,hn⟩
    · rintro ⟨rule,hl,hm⟩
      exact hplain.sources rule hl hm

/-- After any calls the indexed filter gives the answer of the map filter exactly for the plain packets. -/
theorem bartFilter_agrees_iff (ops : List (BartFilter.Op Name Cap)) :
    ∃ ids s, runAll BartFilter.step ops .empty = .ok (ids,s) ∧ ∀ info caps,
      BartFilter.matches s info caps = .ok ((MapFilter.run ops).matches info caps) ↔ (MapFilter.run ops).Plain info caps := by
  obtain ⟨ids,s,hrun,h⟩ := MapFilter.run_stores ops
  exact ⟨ids,s,hrun,h.agree_iff⟩

end

/-- TCP is allowed from 10.0.0.0/8. -/
def tcpRule : Rule ℕ :=
  ⟨⟨[.ofV4 10 0 0 0 8],[]⟩,[6],[⟨.all,[.ofV4 0 0 0 0 0]⟩]⟩

/-- UDP is allowed from 10.1.0.0/16. -/
def udpRule : Rule ℕ :=
  ⟨⟨[.ofV4 10 1 0 0 16],[]⟩,[17],[⟨.all,[.ofV4 0 0 0 0 0]⟩]⟩

/-- The indexed filter drops a TCP packet from 10.1.0.1 that the first rule allows: the prefix of the second rule
is longer and is the only one looked at. -/
theorem narrower_source_hides_rule :
    let _ : IpNetOps := maskOps
    let ops : List (BartFilter.Op ℕ ℕ) := [.insert 0 [tcpRule],.insert 1 [udpRule]]
    let info : PacketInfo := ⟨⟨.v4,[10,1,0,1],rfl⟩,⟨.v4,[1,1,1,1],rfl⟩,6,80⟩
    (do BartFilter.matches (← runAll BartFilter.step ops .empty).2 info []) = .ok false ∧
      (MapFilter.run ops).matches info [] = true := by
  decide +kernel

end Tailnet.PacketFilter
