import Tailnet.Lib.LastBest
import Tailnet.Bart.LongestMatch

/-! Tables that are filled by a list of insertions. An insertion replaces an earlier one of the
same prefix, so a lookup by address finds the last of the longest prefixes that cover it. -/
namespace Tailnet
open List

section
variable {α V : Type} [IpNetOps] (net : α → IpNet) (val : α → V)

/-- A prefix of the family of an address that contains it. -/
def IpNet.Covering (ip : IpAddr) (p : IpNet) : Prop :=
  p.addr.family = ip.family ∧ p.contains ip = true

/-- Two prefixes of one length that cover an address are the same prefix. -/
theorem IpNet.Covering.trunc_eq {ip : IpAddr} {p q : IpNet} (hp : p.Covering ip)
    (hq : q.Covering ip) (hlen : p.prefixLen = q.prefixLen) : p.trunc = q.trunc := by
  have cut {r : IpNet} (hr : r.Covering ip) : r.trunc = ip.netOf r.prefixLen := by
    have hc : r.trunc.Covering ip := ⟨r.trunc_family.trans hr.1,(r.contains_trunc ip).trans hr.2⟩
    have h := (r.trunc_canonical.contains_iff.mp hc).2
    rwa [r.trunc_prefixLen] at h
  rw [cut hp,cut hq,hlen]

namespace SplitStackTable

def insertOne (t : SplitStackTable V) (e : α) : Result (SplitStackTable V) := do
  let (_,t) ← t.insert (net e) (val e)
  return t

def insertAll (t : SplitStackTable V) (es : List α) : Result (SplitStackTable V) :=
  es.foldlM (insertOne net val) t

/-- The map that a list of insertions makes holds, at each prefix, the last value inserted. -/
structure Filled (es : List α) (t : SplitStackTable V) (m : RouteMap V) : Prop where
  rep : t.Rep m
  lookup : ∀ q, m.lookup q = (es.reverse.find? fun e => (net e).trunc = q).map val

variable {net val} {es : List α} {t : SplitStackTable V} {m : RouteMap V}

theorem filled_empty : Filled net val [] (empty : SplitStackTable V) ∅ :=
  ⟨empty_rep,fun _ => rfl⟩

theorem Filled.insertOne (h : Filled net val es t m) (e : α) :
    ∃ t', t.insertOne net val e = .ok t' ∧
      Filled net val (es ++ [e]) t' (m.insert (net e).trunc (val e)) := by
  obtain ⟨t',hrun,hrep⟩ := insert_spec h.rep (net e) (val e)
  refine ⟨t',by rw [SplitStackTable.insertOne,hrun]; rfl,hrep,fun q => ?_⟩
  rw [reverse_append,reverse_singleton,singleton_append,List.find?_cons]
  by_cases hq : (net e).trunc = q
  · subst hq
    simp
  · rw [Finmap.lookup_insert_of_ne m (Ne.symm hq),h.lookup]
    simp [hq]

theorem Filled.insertAll (h : Filled net val es t m) (more : List α) :
    ∃ t' m', t.insertAll net val more = .ok t' ∧ Filled net val (es ++ more) t' m' := by
  induction more generalizing es t m with
  | nil => exact ⟨t,m,rfl,by rwa [append_nil]⟩
  | cons e more ih =>
    obtain ⟨t1,hrun,h1⟩ := h.insertOne e
    obtain ⟨t2,m2,hrun2,h2⟩ := ih h1
    refine ⟨t2,m2,?_,by simpa using h2⟩
    rw [SplitStackTable.insertAll,foldlM_cons,hrun]
    exact hrun2

theorem insertAll_empty (net : α → IpNet) (val : α → V) (es : List α) :
    ∃ t m, (empty : SplitStackTable V).insertAll net val es = .ok t ∧ Filled net val es t m :=
  filled_empty.insertAll es

theorem Filled.mem_iff (h : Filled net val es t m) {q : IpNet} :
    q ∈ m ↔ ∃ e ∈ es, (net e).trunc = q := by
  rw [← Finmap.lookup_isSome,h.lookup,Option.isSome_map,List.find?_isSome]
  simp

theorem Filled.covers (h : Filled net val es t m) {e : α} (he : e ∈ es) {ip : IpAddr}
    (hc : (net e).Covering ip) : Covers m ip (net e).trunc :=
  ⟨h.mem_iff.mpr ⟨e,he,rfl⟩,(net e).trunc_family.trans hc.1,((net e).contains_trunc ip).trans hc.2⟩

/-- A lookup finds nothing if no inserted prefix covers the address, and otherwise the value of
the last of the longest ones. -/
theorem Filled.lookup_spec (h : Filled net val es t m) (ip : IpAddr) :
    t.lookup ip = .ok none ∧ (∀ e ∈ es, ¬ (net e).Covering ip) ∨
      ∃ e, LastBest (fun e => (net e).Covering ip) (fun e => (net e).prefixLen) es e ∧
        t.lookup ip = .ok (some (val e)) := by
  obtain ⟨-,-,-,-,-,-,-,-,-,-,hlook,-⟩ := h.rep.lookups ip
  rcases hlook with ⟨hnone,hno⟩ | ⟨p,v,hlong,hv,hsome⟩
  · exact .inl ⟨hnone,fun e he hc => hno _ (h.covers he hc)⟩
  · rw [h.lookup,Option.map_eq_some_iff] at hv
    obtain ⟨e,hfind,rfl⟩ := hv
    obtain ⟨hp,as,bs,hes,has⟩ := List.find?_eq_some_iff_append.mp hfind
    have hp : (net e).trunc = p := by simpa using hp
    have hsplit : es = bs.reverse ++ e::as.reverse := by
      rw [← reverse_reverse es,hes]
      simp
    have hlen : p.prefixLen = (net e).prefixLen := by rw [← hp,(net e).trunc_prefixLen]
    have hle (y : α) (hy : y ∈ es) (hc : (net y).Covering ip) :
        (net y).prefixLen ≤ (net e).prefixLen := by
      have := hlong.2 _ (h.covers hy hc)
      rwa [(net y).trunc_prefixLen,hlen] at this
    have hcov : (net e).Covering ip := by
      obtain ⟨-,hf,hc⟩ := hlong.1
      rw [← hp] at hf hc
      exact ⟨(net e).trunc_family.symm.trans hf,((net e).contains_trunc ip).symm.trans hc⟩
    refine .inr ⟨e,⟨bs.reverse,as.reverse,hsplit,hcov,fun y hy => hle y ?_,fun y hy hc => ?_⟩,hsome⟩
    · rw [hsplit]
      exact mem_append_left _ hy
    · -- an element behind `e` with a prefix of the same length would have replaced `e`
      apply lt_of_le_of_ne (hle y (by rw [hsplit]; simp [mem_reverse.mp hy]) hc)
      intro heq
      have := has y (mem_reverse.mp hy)
      rw [← hp,hc.trunc_eq hcov heq] at this
      simp at this

theorem Filled.lookup_eq_iff (h : Filled net val es t m) {ip : IpAddr} {v : V} :
    t.lookup ip = .ok (some v) ↔
      ∃ e, LastBest (fun e => (net e).Covering ip) (fun e => (net e).prefixLen) es e ∧ val e = v := by
  rcases h.lookup_spec ip with ⟨hnone,hno⟩ | ⟨e,hbest,hsome⟩
  · rw [hnone]
    constructor
    · intro hv
      cases hv
    · rintro ⟨e,hbest,-⟩
      exact absurd hbest.eligible (hno e hbest.mem)
  · rw [hsome]
    constructor
    · intro hv
      cases hv
      exact ⟨e,hbest,rfl⟩
    · rintro ⟨e',hbest',rfl⟩
      rw [hbest.unique hbest']

end SplitStackTable

end

end Tailnet
