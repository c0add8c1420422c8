import Tailnet.Bart.PrefixMatch

/-! The prefix that a longest-prefix lookup by prefix reports. A leaf is reported as it is stored; a route
of a node or a fringe is reported as the network address of the query cut to the length of the route, with
the bits behind it as the query has them. -/
namespace Tailnet

section Table
variable [IpNetOps] {T : Type} {m : RouteMap T} {t : SplitStackTable T} {q p r : IpNet} {v : T}

/-- The reported prefix is a stored one, and its value the one that is stored there. -/
def ReportsKey (t : SplitStackTable T) (m : RouteMap T) (q : IpNet) : Prop :=
  ∀ p v, t.lookupPrefixLpm q = .ok (some (p,v)) →
    p ∈ m ∧ m.lookup p = some v ∧ t.lookupPrefixExact p = .ok (some v)

theorem SplitStackTable.Rep.reportsKey_of_lookup (h : t.Rep m) (hr : m.lookup r = some v) :
    r ∈ m ∧ m.lookup r = some v ∧ t.lookupPrefixExact r = .ok (some v) := by
  have hmem : r ∈ m := Finmap.mem_iff.mpr ⟨v,hr⟩
  exact ⟨hmem,hr,by rw [h.lookupPrefixExact (h.canonical r hmem),hr]⟩

theorem SplitStackTable.Rep.exists_alone_iff (h : t.Rep m) :
    (∃ r, Alone m q r) ↔ ∃ v k, Lone ((t.stackTable q.addr.isIpv4).root.routes []) q.prefixLen 0
      q.trunc.addr.octets k v := by
  constructor
  · rintro ⟨r,hr⟩
    obtain ⟨v,hv⟩ := Finmap.mem_iff.mp hr.mem
    exact ⟨v,h.alone_iff.mp ⟨r,hr,hv⟩⟩
  · rintro ⟨v,hk⟩
    obtain ⟨r,hr,-⟩ := h.alone_iff.mpr hk
    exact ⟨r,hr⟩

/-- The reported prefix is a key exactly when a stored prefix is alone below the octets of the query, or the
longest covering prefix, if there is one, has the network address of the query. -/
theorem lookupPrefixLpm_reports_key_iff (ops : List (TableOp T)) :
    ∃ t, SplitStackTable.run ops = .ok ((RouteMap.run ops).1,t) ∧ ∀ q : IpNet,
      (ReportsKey t (RouteMap.run ops).2 q ↔
        ((∃ r, Alone (RouteMap.run ops).2 q r) ∨
          ∀ p, IsLongestNet (RouteMap.run ops).2 q p → p.addr = q.trunc.addr)) := by
  obtain ⟨t,hrun,h⟩ := SplitStackTable.run_spec ops
  refine ⟨t,hrun,fun q => ?_⟩
  obtain ⟨res,hres,hrep⟩ := lookupPrefixLpm_reports (h.stack q.addr.family).wf
  replace hres : t.lookupPrefixLpm q = .ok res := hres
  rw [h.exists_alone_iff]
  cases hrep with
  | leaf r v hlone canonical family route =>
    refine ⟨fun _ => .inl ⟨v,hlone⟩,fun _ p u hp => ?_⟩
    cases hres.symm.trans hp
    apply h.reportsKey_of_lookup
    rw [(h.stack q.addr.family).routes r canonical family]
    exact route
  | cut r v hlone addr longest =>
    obtain ⟨hlook,hlongest⟩ := h.longest_of_cut addr longest
    constructor
    · intro hkey
      right
      intro p hp
      -- the reported prefix is stored, hence canonical, and the longest covering one
      have hmem : r ∈ (RouteMap.run ops).2 := (hkey r v hres).1
      have hcan : r.trunc = r := h.canonical r hmem
      rw [hcan] at hlongest
      rw [hp.unique h.canonical hlongest,addr]
    · rintro (hl | hnet) p u hp
      · obtain ⟨w,hw⟩ := hl
        exact absurd hw (hlone w)
      · cases hres.symm.trans hp
        have hcan : r.trunc = r := IpNet.ext ((hnet _ hlongest).trans addr.symm) r.trunc_prefixLen
        rw [hcan] at hlook
        exact h.reportsKey_of_lookup hlook
  | nothing hlone empty =>
    constructor
    · intro _
      right
      intro p hp
      exact absurd (empty _ hp.1.2.2.1) (h.valuesAt_of_covers hp.1)
    · intro _ p u hp
      rw [hres] at hp
      cases hp

end Table

/-- A shorter prefix that covers the query is reported with the address of the query. -/
theorem lookupPrefixLpm_reports_host_bits :
    let stored : IpNet := ⟨⟨.v4,[10,0,0,0],rfl⟩,8,by decide⟩
    let query : IpNet := ⟨⟨.v4,[10,1,0,0],rfl⟩,16,by decide⟩
    let reported : IpNet := ⟨⟨.v4,[10,1,0,0],rfl⟩,8,by decide⟩
    ∃ t, @SplitStackTable.run ℕ maskOps [.insert stored 1] = .ok ([none],t) ∧
      @SplitStackTable.lookupPrefixLpm ℕ maskOps t query = .ok (some (reported,1)) ∧
      ¬ @ReportsKey maskOps ℕ t (@RouteMap.run ℕ maskOps [.insert stored 1]).2 query := by
  intro stored query reported
  obtain ⟨t,hrun,h⟩ := @SplitStackTable.run_spec ℕ maskOps [.insert stored 1]
  have hlpm : (do
      let (_,t) ← @SplitStackTable.run ℕ maskOps [.insert stored 1]
      @SplitStackTable.lookupPrefixLpm ℕ maskOps t query) = .ok (some (reported,1)) := by
    decide +kernel
  rw [hrun] at hlpm
  refine ⟨t,hrun,hlpm,fun hkey => ?_⟩
  let _ : IpNetOps := maskOps
  have hcan : reported.trunc = reported := h.canonical _ (hkey _ _ hlpm).1
  exact absurd hcan (by decide)

end Tailnet
