import Tailnet.Bart.Lookup
import Tailnet.Bart.Modify

/-! Routing tables. The split table keeps one trie for each address family; its
reference is a finite map from truncated prefixes to values. Every call on the
table returns what the call on the map returns. -/
namespace Tailnet
open Finset Finmap

structure SimpleTable (T : Type) where
  root : Node T
  size : ℕ

namespace SimpleTable

variable {T : Type}

def empty : SimpleTable T := ⟨.empty,0⟩

/-- The counter is unsigned: taking one from zero panics. -/
def decrement (size : ℕ) : Result ℕ :=
  match size with
  | 0 => .error .overflow
  | n+1 => .ok n

/-- The counter after a modification, from what it returned and decided. -/
def resize : Option T → Option (RouteModification T) → ℕ → Result ℕ
  | none,some (.insert _),n => .ok (n+1)
  | some _,some .remove,n => decrement n
  | _,_,n => .ok n

variable [IpNetOps]

def contains (t : SimpleTable T) (ip : IpAddr) : Result Bool := t.root.contains ip

def insert (t : SimpleTable T) (p : IpNet) (val : T) : Result (Option T × SimpleTable T) := do
  let (ret,root) ← t.root.insert p.trunc val
  return (ret,⟨root,if ret.isNone then t.size + 1 else t.size⟩)

def remove (t : SimpleTable T) (p : IpNet) : Result (Option T × SimpleTable T) := do
  let (ret,root) ← t.root.remove p
  match ret with
  | none => return (none,⟨root,t.size⟩)
  | some v => return (some v,⟨root,← decrement t.size⟩)

def modify (t : SimpleTable T) (p : IpNet) (f : ModifyFn T) :
    Result (Option T × SimpleTable T) := do
  let (op,ret,root) ← t.root.modify p f
  let size ← resize ret op t.size
  return (ret,⟨root,size⟩)

def lookup (t : SimpleTable T) (ip : IpAddr) : Result (Option T) := lookupAddress t.root ip

def lookupAll (t : SimpleTable T) (ip : IpAddr) : Result (LookupIter T) :=
  lookupAddressAll t.root ip

omit [IpNetOps] in
def lookupPrefixExact (t : SimpleTable T) (p : IpNet) : Result (Option T) :=
  Tailnet.lookupPrefixExact t.root p

def lookupPrefix (t : SimpleTable T) (p : IpNet) : Result (Option T) := do
  let ret ← Tailnet.lookupPrefixLpm t.root p
  return ret.map fun r => r.2

def lookupPrefixLpm (t : SimpleTable T) (p : IpNet) : Result (Option (IpNet × T)) :=
  Tailnet.lookupPrefixLpm t.root p

end SimpleTable

structure SplitStackTable (T : Type) where
  table4 : SimpleTable T
  table6 : SimpleTable T

inductive TableOp (T : Type)
  | insert (p : IpNet) (val : T)
  | remove (p : IpNet)
  | modify (p : IpNet) (f : ModifyFn T)
  | clear

namespace SplitStackTable

variable {T : Type}

def empty : SplitStackTable T := ⟨.empty,.empty⟩

def stackTable (t : SplitStackTable T) (ipv4 : Bool) : SimpleTable T :=
  if ipv4 then t.table4 else t.table6

def setStackTable (t : SplitStackTable T) (ipv4 : Bool) (s : SimpleTable T) : SplitStackTable T :=
  if ipv4 then { t with table4 := s } else { t with table6 := s }

def size (t : SplitStackTable T) : ℕ := t.table4.size + t.table6.size

def lookupPrefixExact (t : SplitStackTable T) (p : IpNet) : Result (Option T) :=
  (t.stackTable p.addr.isIpv4).lookupPrefixExact p

variable [IpNetOps]

def lookupPrefix (t : SplitStackTable T) (p : IpNet) : Result (Option T) :=
  (t.stackTable p.addr.isIpv4).lookupPrefix p

def lookupPrefixLpm (t : SplitStackTable T) (p : IpNet) : Result (Option (IpNet × T)) :=
  (t.stackTable p.addr.isIpv4).lookupPrefixLpm p

def contains (t : SplitStackTable T) (ip : IpAddr) : Result Bool :=
  (t.stackTable ip.isIpv4).contains ip

def insert (t : SplitStackTable T) (p : IpNet) (val : T) :
    Result (Option T × SplitStackTable T) := do
  let (ret,s) ← (t.stackTable p.addr.isIpv4).insert p val
  return (ret,t.setStackTable p.addr.isIpv4 s)

def remove (t : SplitStackTable T) (p : IpNet) : Result (Option T × SplitStackTable T) := do
  let (ret,s) ← (t.stackTable p.addr.isIpv4).remove p
  return (ret,t.setStackTable p.addr.isIpv4 s)

def modify (t : SplitStackTable T) (p : IpNet) (f : ModifyFn T) :
    Result (Option T × SplitStackTable T) := do
  let (ret,s) ← (t.stackTable p.addr.isIpv4).modify p f
  return (ret,t.setStackTable p.addr.isIpv4 s)

def lookup (t : SplitStackTable T) (ip : IpAddr) : Result (Option T) :=
  (t.stackTable ip.isIpv4).lookup ip

def lookupAll (t : SplitStackTable T) (ip : IpAddr) : Result (LookupIter T) :=
  (t.stackTable ip.isIpv4).lookupAll ip

/-- One call; `clear` returns nothing. -/
def step : TableOp T → SplitStackTable T → Result (Option T × SplitStackTable T)
  | .insert p val,t => t.insert p val
  | .remove p,t => t.remove p
  | .modify p f,t => t.modify p f
  | .clear,_ => return (none,empty)

def run (ops : List (TableOp T)) : Result (List (Option T) × SplitStackTable T) :=
  runAll step ops empty

end SplitStackTable

/-- The reference: a finite map keyed by truncated prefixes. -/
abbrev RouteMap (T : Type) := Finmap fun _ : IpNet => T

namespace RouteMap

variable {T : Type}

def set (m : RouteMap T) (p : IpNet) : Option T → RouteMap T
  | some v => m.insert p v
  | none => m.erase p

theorem lookup_set (m : RouteMap T) (p q : IpNet) (new : Option T) :
    (m.set p new).lookup q = if q = p then new else m.lookup q := by
  by_cases h : q = p
  · subst h
    cases new with
    | none => simp [set]
    | some v => simp [set]
  · cases new with
    | none => simp [set,h,lookup_erase_ne h]
    | some v => simp [set,h,lookup_insert_of_ne m h]

theorem mem_set {m : RouteMap T} {p q : IpNet} {new : Option T} :
    q ∈ m.set p new ↔ if q = p then new.isSome = true else q ∈ m := by
  have h := mem_iff (a := q) (s := m.set p new)
  rw [h,lookup_set,Option.isSome_iff_exists]
  split
  · rfl
  · exact (mem_iff (a := q) (s := m)).symm

def famKeys (m : RouteMap T) (fam : Family) : Finset IpNet :=
  m.keys.filter fun p => p.addr.family = fam

theorem mem_famKeys {m : RouteMap T} {fam : Family} {p : IpNet} :
    p ∈ m.famKeys fam ↔ p ∈ m ∧ p.addr.family = fam := by
  rw [famKeys,mem_filter,mem_keys]

theorem famKeys_set_of_ne (m : RouteMap T) {p : IpNet} {fam : Family} (h : p.addr.family ≠ fam)
    (new : Option T) : (m.set p new).famKeys fam = m.famKeys fam := by
  ext q
  rw [mem_famKeys,mem_famKeys,mem_set]
  refine and_congr_left fun hq => ?_
  rw [if_neg]
  rintro rfl
  exact h hq

theorem card_famKeys_set (m : RouteMap T) (p : IpNet) (new : Option T) :
    ((m.set p new).famKeys p.addr.family).card + (if (m.lookup p).isSome then 1 else 0) =
      (m.famKeys p.addr.family).card + (if new.isSome then 1 else 0) := by
  have hset : (m.set p new).famKeys p.addr.family =
      if new.isSome then insert p (m.famKeys p.addr.family)
      else (m.famKeys p.addr.family).erase p := by
    ext q
    rw [mem_famKeys,mem_set]
    by_cases h : q = p
    · subst h
      cases new with
      | none => simp
      | some v => simp
    · cases new with
      | none => simp [h,mem_famKeys]
      | some v => simp [h,mem_famKeys]
  have hp : p ∈ m.famKeys p.addr.family ↔ (m.lookup p).isSome = true := by
    rw [mem_famKeys,mem_iff,Option.isSome_iff_exists]
    simp
  rw [hset]
  by_cases hs : (m.lookup p).isSome = true
  · have hm := hp.mpr hs
    cases new with
    | none => simp [hs,card_erase_add_one hm]
    | some v => simp [hs,insert_eq_of_mem hm]
  · have hm : p ∉ m.famKeys p.addr.family := fun h => hs (hp.mp h)
    cases new with
    | none => simp [hs,erase_eq_of_notMem hm]
    | some v => simp [hs,card_insert_of_notMem hm]

theorem card_keys (m : RouteMap T) :
    m.keys.card = (m.famKeys .v4).card + (m.famKeys .v6).card := by
  rw [famKeys,famKeys,← card_filter_add_card_filter_not (p := fun p => p.addr.family = .v4)]
  congr 2
  ext p
  cases h : p.addr.family <;> simp [h]

variable [IpNetOps]

def step : TableOp T → RouteMap T → Option T × RouteMap T
  | .insert p val,m => (m.lookup p.trunc,m.insert p.trunc val)
  | .remove p,m => (m.lookup p.trunc,m.erase p.trunc)
  | .modify p f,m =>
    let (cur,decision) := f.call (m.lookup p.trunc)
    let (ret,new) := decision.apply cur
    (ret,set m p.trunc new)
  | .clear,_ => (none,∅)

def run (ops : List (TableOp T)) : List (Option T) × RouteMap T := specAll step ops ∅

end RouteMap

section Refinement
variable {T : Type} {m : RouteMap T}

theorem SplitStackTable.stackTable_set (t : SplitStackTable T) (fam fam' : Family)
    (s : SimpleTable T) : (t.setStackTable (fam == .v4) s).stackTable (fam' == .v4) =
      if fam' = fam then s else t.stackTable (fam' == .v4) := by
  cases fam <;> cases fam' <;> rfl

theorem SimpleTable.resize_spec (f : ModifyFn T) {cur : Option T} {n : ℕ}
    (hpos : cur.isSome = true → 0 < n) :
    ∃ k, resize ((f.call cur).2.apply (f.call cur).1).1 (some (f.call cur).2) n = .ok k ∧
      k + (if cur.isSome then 1 else 0) =
        n + (if ((f.call cur).2.apply (f.call cur).1).2.isSome then 1 else 0) := by
  cases cur with
  | none =>
    cases hd : f.absent with
    | insert u => exact ⟨n+1,by simp [ModifyFn.call,hd,RouteModification.apply,resize]⟩
    | remove => exact ⟨n,by simp [ModifyFn.call,hd,RouteModification.apply,resize]⟩
    | noop => exact ⟨n,by simp [ModifyFn.call,hd,RouteModification.apply,resize]⟩
  | some v =>
    cases hd : (f.present v).2 with
    | insert u => exact ⟨n,by simp [ModifyFn.call,hd,RouteModification.apply,resize]⟩
    | remove =>
      obtain ⟨k,rfl⟩ : ∃ k, n = k+1 := ⟨n - 1,by have := hpos rfl; omega⟩
      exact ⟨k,by simp [ModifyFn.call,hd,RouteModification.apply,resize,decrement]⟩
    | noop => exact ⟨n,by simp [ModifyFn.call,hd,RouteModification.apply,resize]⟩

variable [IpNetOps]

/-- A trie with its counter stands for the routes of its family. -/
structure SimpleTable.Rep (fam : Family) (s : SimpleTable T) (m : RouteMap T) : Prop where
  wf : s.root.RootWF fam
  routes : ∀ p, p.Canonical → p.addr.family = fam → m.lookup p = s.root.routes [] p.key
  size : s.size = (m.famKeys fam).card

structure SplitStackTable.Rep (t : SplitStackTable T) (m : RouteMap T) : Prop where
  stack : ∀ fam, (t.stackTable (fam == .v4)).Rep fam m
  canonical : ∀ p ∈ m, p.Canonical

theorem SplitStackTable.empty_rep : (empty : SplitStackTable T).Rep ∅ := by
  refine ⟨fun fam => ?_,fun p hp => absurd hp notMem_empty⟩
  have he : (empty : SplitStackTable T).stackTable (fam == .v4) = .empty := by
    cases fam <;> rfl
  rw [he]
  exact ⟨Node.empty_rootWF,fun p _ _ => by simp [SimpleTable.empty],rfl⟩

/-- A call that updates the trie at a key and counts the change follows the map. -/
theorem SplitStackTable.Rep.set {t : SplitStackTable T} (h : t.Rep m) (p : IpNet) (new : Option T)
    {s : SimpleTable T} (hwf : s.root.RootWF p.addr.family)
    (hr : s.root.routes [] =
      Function.update ((t.stackTable p.addr.isIpv4).root.routes []) p.key new)
    (hs : s.size + (if (m.lookup p.trunc).isSome then 1 else 0) =
      (t.stackTable p.addr.isIpv4).size + (if new.isSome then 1 else 0)) :
    (t.setStackTable p.addr.isIpv4 s).Rep (m.set p.trunc new) := by
  have hp := h.stack p.addr.family
  refine ⟨fun fam => ?_,?_⟩
  · rw [IpAddr.isIpv4,stackTable_set]
    split
    · rename_i hf
      subst hf
      refine ⟨hwf,?_,?_⟩
      · intro q hq hqf
        rw [RouteMap.lookup_set,hr,Function.update_apply,hp.routes q hq hqf]
        refine if_congr ⟨?_,?_⟩ rfl rfl
        · rintro rfl
          exact p.trunc_key
        · intro hk
          exact hq.ext p.trunc_canonical (by simpa using hqf) (by simpa using hk)
      · have hc := m.card_famKeys_set p.trunc new
        rw [p.trunc_family] at hc
        have hsz := hp.size
        rw [← IpAddr.isIpv4] at hsz
        omega
    · rename_i hf
      have ho := h.stack fam
      refine ⟨ho.wf,?_,?_⟩
      · intro q hq hqf
        rw [RouteMap.lookup_set,if_neg,ho.routes q hq hqf]
        rintro rfl
        exact hf (by simpa using hqf.symm)
      · rw [RouteMap.famKeys_set_of_ne m (by simpa using fun he => hf he.symm),ho.size]
  · intro q hq
    rw [RouteMap.mem_set] at hq
    split at hq
    · rename_i he
      rw [he]
      exact p.trunc_canonical
    · exact h.canonical q hq

theorem SplitStackTable.insert_spec {t : SplitStackTable T} (h : t.Rep m) (p : IpNet) (v : T) :
    ∃ t', t.insert p v = .ok (m.lookup p.trunc,t') ∧ t'.Rep (m.insert p.trunc v) := by
  have hp := h.stack p.addr.family
  have hl := hp.routes p.trunc p.trunc_canonical p.trunc_family
  rw [← IpAddr.isIpv4] at hp hl
  rw [p.trunc_key] at hl
  obtain ⟨root,hrun,hwf,hr⟩ := Node.insert_spec (p := p.trunc) (by simpa using hp.wf) v
  rw [p.trunc_key] at hrun hr
  rw [p.trunc_family] at hwf
  refine ⟨_,by simp [insert,SimpleTable.insert,hrun,hl]; rfl,?_⟩
  apply h.set p (some v) hwf hr
  rw [hl]
  cases (t.stackTable p.addr.isIpv4).root.routes [] p.key <;> simp

theorem SimpleTable.Rep.decrement {fam : Family} {s : SimpleTable T} (h : s.Rep fam m) {p : IpNet}
    (hp : p.addr.family = fam) {v : T} (hv : m.lookup p = some v) :
    ∃ n, SimpleTable.decrement s.size = .ok n ∧ s.size = n+1 := by
  have hmem : p ∈ m.famKeys fam := RouteMap.mem_famKeys.mpr ⟨mem_iff.mpr ⟨v,hv⟩,hp⟩
  have hpos := card_pos.mpr ⟨p,hmem⟩
  rw [← h.size] at hpos
  obtain ⟨n,hn⟩ : ∃ n, s.size = n+1 := ⟨s.size - 1,by omega⟩
  exact ⟨n,by rw [hn]; rfl,hn⟩

theorem SplitStackTable.remove_spec {t : SplitStackTable T} (h : t.Rep m) (p : IpNet) :
    ∃ t', t.remove p = .ok (m.lookup p.trunc,t') ∧ t'.Rep (m.erase p.trunc) := by
  have hp := h.stack p.addr.family
  have hl := hp.routes p.trunc p.trunc_canonical p.trunc_family
  rw [← IpAddr.isIpv4] at hp hl
  rw [p.trunc_key] at hl
  obtain ⟨root,hrun,hwf,hr⟩ := Node.remove_spec hp.wf
  rw [← hl] at hrun
  cases hv : m.lookup p.trunc with
  | none =>
    rw [hv] at hrun
    refine ⟨_,by simp [remove,SimpleTable.remove,hrun]; rfl,h.set p none hwf hr ?_⟩
    simp [hv]
  | some v =>
    rw [hv] at hrun
    obtain ⟨n,hn,hsz⟩ := hp.decrement p.trunc_family hv
    refine ⟨_,by simp [remove,SimpleTable.remove,hrun,hn]; rfl,h.set p none hwf hr ?_⟩
    simp [hv,hsz]

theorem SplitStackTable.modify_spec {t : SplitStackTable T} (h : t.Rep m) (p : IpNet)
    (f : ModifyFn T) : ∃ t', t.modify p f = .ok ((RouteMap.step (.modify p f) m).1,t') ∧
      t'.Rep (RouteMap.step (.modify p f) m).2 := by
  have hp := h.stack p.addr.family
  have hl := hp.routes p.trunc p.trunc_canonical p.trunc_family
  rw [← IpAddr.isIpv4] at hp hl
  rw [p.trunc_key] at hl
  obtain ⟨root,hrun,hwf,hr⟩ := Node.modify_spec f hp.wf
  rw [← hl] at hrun hr
  have hpos : (m.lookup p.trunc).isSome = true → 0 < (t.stackTable p.addr.isIpv4).size := by
    intro hs
    obtain ⟨v,hv⟩ := Option.isSome_iff_exists.mp hs
    obtain ⟨n,_,hsz⟩ := hp.decrement p.trunc_family hv
    omega
  obtain ⟨n,hn,hsz⟩ := SimpleTable.resize_spec f hpos
  refine ⟨t.setStackTable p.addr.isIpv4 ⟨root,n⟩,?_,h.set p _ hwf hr hsz⟩
  rw [modify,SimpleTable.modify,hrun]
  simp only [Result.bind_of_ok,hn]
  rfl

theorem SplitStackTable.step_spec {t : SplitStackTable T} (op : TableOp T) (h : t.Rep m) :
    ∃ t', step op t = .ok ((RouteMap.step op m).1,t') ∧ t'.Rep (RouteMap.step op m).2 := by
  cases op with
  | insert p v => exact insert_spec h p v
  | remove p => exact remove_spec h p
  | modify p f => exact modify_spec h p f
  | clear => exact ⟨empty,rfl,empty_rep⟩

/-- Every run of the table follows the map. -/
theorem SplitStackTable.run_spec (ops : List (TableOp T)) :
    ∃ t, run ops = .ok ((RouteMap.run ops).1,t) ∧ t.Rep (RouteMap.run ops).2 :=
  runAll_refines SplitStackTable.Rep (fun op _ _ h => step_spec op h) ops empty_rep

theorem SplitStackTable.Rep.lookupPrefixExact {t : SplitStackTable T} (h : t.Rep m) {q : IpNet}
    (hq : q.Canonical) : t.lookupPrefixExact q = .ok (m.lookup q) := by
  have hs := h.stack q.addr.family
  rw [hs.routes q hq rfl]
  exact lookupExactLoop_spec hs.wf ⟨hq,rfl,List.nil_prefix⟩ (Nat.zero_add _)

theorem SplitStackTable.Rep.size {t : SplitStackTable T} (h : t.Rep m) : t.size = m.keys.card := by
  rw [m.card_keys,← (h.stack .v4).size,← (h.stack .v6).size]
  rfl

/-- The table is the map: every sequence of calls returns what it returns on the
map, without a panic, and afterwards the size and the exact lookups agree. -/
theorem splitStackTable_refines_map (ops : List (TableOp T)) :
    ∃ t, SplitStackTable.run ops = .ok ((RouteMap.run ops).1,t) ∧
      t.size = (RouteMap.run ops).2.keys.card ∧
      ∀ q : IpNet, q.trunc = q → t.lookupPrefixExact q = .ok ((RouteMap.run ops).2.lookup q) := by
  obtain ⟨t,hrun,h⟩ := SplitStackTable.run_spec ops
  exact ⟨t,hrun,h.size,fun q hq => h.lookupPrefixExact hq⟩

end Refinement
end Tailnet
