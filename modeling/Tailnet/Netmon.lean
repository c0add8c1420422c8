import Tailnet.Lib.OrdMap
import Tailnet.Lib.Run
import Tailnet.Net

/-! The default route interface. The tracker of one family keeps the default routes by metric and the
interfaces that are up, and reports the interface of the first route that is on such an interface. The
reference keeps the routes by what identifies them. -/
namespace Tailnet.Netmon
open List OrdMap

/-- A route; addresses enter by their order only. -/
structure Route (Addr : Type) where
  dst : IpNet
  gateway : List Addr
  metric : ℕ
  deriving DecidableEq

namespace Route
variable {Addr : Type}

def isDefaultRoute (r : Route Addr) : Bool := r.dst.prefixLen == 0 && !r.gateway.isEmpty

def family (r : Route Addr) : Family := if r.dst.addr.isIpv4 then .v4 else .v6

/-- What identifies a route on its interface. -/
def unique (r : Route Addr) : IpNet × List Addr := (r.dst,r.gateway)

end Route

structure Interface (Id : Type) where
  id : Id
  up : Bool
  name : String
  mtu : Option ℕ
  hardwareAddr : Option (List UInt8)
  deriving DecidableEq

inductive Event (Id Addr : Type)
  | addrUpsert (id : Id) (net : IpNet)
  | addrRemoved (id : Id) (net : IpNet)
  | interfaceUpsert (interface : Interface Id)
  | interfaceRemoved (id : Id)
  | routeUpsert (id : Id) (route : Route Addr)
  | routeRemoved (id : Id) (route : Route Addr)
  | defaultRouteInterface (id : Option Id) (family : Family)
  deriving DecidableEq

section
variable {Id Addr : Type} [LinearOrder Id] [LinearOrder Addr]

/-- The interface and the sorted gateways of a default route. -/
abbrev DefaultRouteUnique (Id Addr : Type) := Id ×ₗ List Addr

structure DefaultRouteState (Id Addr : Type) [LinearOrder Id] [LinearOrder Addr] where
  metrics : OrdMap ℕ (OrdMap (DefaultRouteUnique Id Addr) Unit)
  interfacesUp : Finset Id
  lastId : Option Id
  family : Family

def sortGateways (gws : List Addr) : List Addr := gws.insertionSort (· ≤ ·)

namespace DefaultRouteState

def new (family : Family) : DefaultRouteState Id Addr := ⟨.empty,∅,none,family⟩

/-- The routes in the order of metric, interface and gateways. -/
def flatten (s : DefaultRouteState Id Addr) : List (ℕ ×ₗ DefaultRouteUnique Id Addr) :=
  s.metrics.entries.flatMap fun e => e.2.entries.map fun k => toLex (e.1,k.1)

def idOf (t : ℕ ×ₗ DefaultRouteUnique Id Addr) : Id := (ofLex (ofLex t).2).1

def updateBest (s : DefaultRouteState Id Addr) : Option (Event Id Addr) × DefaultRouteState Id Addr :=
  let newBestId := (s.flatten.find? fun t => decide (idOf t ∈ s.interfacesUp)).map idOf
  if newBestId = s.lastId then (none,s)
  else (some (.defaultRouteInterface newBestId s.family),{ s with lastId := newBestId })

def addRoute (id : Id) (route : Route Addr) (s : DefaultRouteState Id Addr) :
    Option (Event Id Addr) × DefaultRouteState Id Addr :=
  if route.family ≠ s.family || !route.isDefaultRoute then (none,s)
  else
    let gws := sortGateways route.gateway
    let entry := (s.metrics.get route.metric).getD .empty
    let modified := (entry.get (toLex (id,gws))).isNone
    let s := { s with metrics := s.metrics.insert route.metric (entry.insert (toLex (id,gws)) ()) }
    if !modified then (none,s) else s.updateBest

def removeRoute (id : Id) (route : Route Addr) (s : DefaultRouteState Id Addr) :
    Option (Event Id Addr) × DefaultRouteState Id Addr :=
  if route.family ≠ s.family || !route.isDefaultRoute then (none,s)
  else match s.metrics.get route.metric with
    | none => (none,s)
    | some entry =>
      let gws := sortGateways route.gateway
      let modified := (entry.get (toLex (id,gws))).isSome
      let entry := entry.erase (toLex (id,gws))
      if !modified then (none,s)
      else
        let metrics :=
          if entry.entries.isEmpty then s.metrics.erase route.metric else s.metrics.insert route.metric entry
        updateBest { s with metrics }

def updateInterfaceState (id : Id) (up : Bool) (s : DefaultRouteState Id Addr) :
    Option (Event Id Addr) × DefaultRouteState Id Addr :=
  if up then
    if id ∈ s.interfacesUp then (none,s)
    else updateBest { s with interfacesUp := insert id s.interfacesUp }
  else
    if id ∈ s.interfacesUp then updateBest { s with interfacesUp := s.interfacesUp.erase id }
    else (none,s)

/-- The entries that are kept are those of the interface. -/
def removeInterface (id : Id) (s : DefaultRouteState Id Addr) :
    Option (Event Id Addr) × DefaultRouteState Id Addr :=
  let keep (e : OrdMap (DefaultRouteUnique Id Addr) Unit) :=
    e.filterMap fun k u => if (ofLex k).1 = id then some u else none
  let modified := s.metrics.entries.any fun e => e.2.entries.any fun k => decide ((ofLex k.1).1 = id)
  let metrics := s.metrics.filterMap fun _ e => if (keep e).entries.isEmpty then none else some (keep e)
  let s := { s with metrics, interfacesUp := s.interfacesUp.erase id }
  if !modified then (none,s) else s.updateBest

/-- One event of the stream, for the tracker of one family. -/
def ingest (strong : Bool) : Event Id Addr → DefaultRouteState Id Addr →
    Option (Event Id Addr) × DefaultRouteState Id Addr
  | .routeUpsert id route,s => s.addRoute id route
  | .routeRemoved id route,s => s.removeRoute id route
  | .interfaceUpsert interface,s => s.updateInterfaceState interface.id interface.up
  | .interfaceRemoved id,s => if strong then s.removeInterface id else (none,s)
  | _,s => (none,s)

end DefaultRouteState

/-- The trackers of the two families. -/
abbrev Trackers (Id Addr : Type) [LinearOrder Id] [LinearOrder Addr] :=
  DefaultRouteState Id Addr × DefaultRouteState Id Addr

def Trackers.new : Trackers Id Addr := (.new .v4,.new .v6)

def isDefaultRouteInterface : Event Id Addr → Bool
  | .defaultRouteInterface _ _ => true
  | _ => false

/-- One item of the stream of a monitor: what is passed on, and the trackers afterwards. -/
def withDefaultRouteEvents {ε : Type} (strong : Bool) (x : Except ε (Event Id Addr)) (s : Trackers Id Addr) :
    List (Except ε (Event Id Addr)) × Trackers Id Addr :=
  match x with
  | .error _ => ([x],s)
  | .ok event =>
    if isDefaultRouteInterface event then ([],s)
    else
      let (e1,s4) := s.1.ingest strong event
      let (e2,s6) := s.2.ingest strong event
      (x :: (e1.toList ++ e2.toList).map .ok,(s4,s6))

/-- The routes and interfaces that are there. -/
structure Current (Id Addr : Type) where
  routes : List (Id × Route Addr)
  up : Finset Id

namespace Current

def empty : Current Id Addr := ⟨[],∅⟩

def sameRoute (id : Id) (route : Route Addr) (e : Id × Route Addr) : Bool :=
  decide (e.1 = id ∧ e.2.unique = route.unique)

/-- A route replaces the one with the same interface, destination and gateways; with an interface go its
routes. -/
def next : Event Id Addr → Current Id Addr → Current Id Addr
  | .routeUpsert id route,c =>
    { c with routes := c.routes.filter (fun e => !sameRoute id route e) ++ [(id,route)] }
  | .routeRemoved id route,c => { c with routes := c.routes.filter fun e => !sameRoute id route e }
  | .interfaceUpsert interface,c =>
    { c with up := if interface.up then insert interface.id c.up else c.up.erase interface.id }
  | .interfaceRemoved id,c => ⟨c.routes.filter fun e => decide (e.1 ≠ id),c.up.erase id⟩
  | _,c => c

def key (e : Id × Route Addr) : ℕ ×ₗ DefaultRouteUnique Id Addr :=
  toLex (e.2.metric,toLex (e.1,sortGateways e.2.gateway))

/-- The default routes of a family. -/
def defaults (family : Family) (c : Current Id Addr) : List (Id × Route Addr) :=
  c.routes.filter fun e => e.2.isDefaultRoute && decide (e.2.family = family)

/-- The interface of the least of the default routes that are on interfaces that are up. -/
def best (family : Family) (c : Current Id Addr) : Option Id :=
  (((c.defaults family).filter fun e => decide (e.1 ∈ c.up)).map key).min?.map DefaultRouteState.idOf

/-- The report that is due when the best interface has changed. -/
def report (family : Family) (c c' : Current Id Addr) : Option (Event Id Addr) :=
  if c'.best family = c.best family then none
  else some (.defaultRouteInterface (c'.best family) family)

def step {ε : Type} (x : Except ε (Event Id Addr)) (c : Current Id Addr) :
    List (Except ε (Event Id Addr)) × Current Id Addr :=
  match x with
  | .error _ => ([x],c)
  | .ok event =>
    if isDefaultRouteInterface event then ([],c)
    else
      let c' := c.next event
      (x :: ((c.report .v4 c').toList ++ (c.report .v6 c').toList).map .ok,c')

end Current

namespace DefaultRouteState
variable {s : DefaultRouteState Id Addr}

theorem mem_flatten {metric : ℕ} {k : DefaultRouteUnique Id Addr} :
    toLex (metric,k) ∈ s.flatten ↔ ∃ entry, s.metrics.get metric = some entry ∧ entry.get k = some () := by
  simp only [flatten,mem_flatMap,mem_map]
  constructor
  · rintro ⟨⟨m,entry⟩,he,⟨k',u⟩,hk,heq⟩
    cases toLex_inj.mp heq
    exact ⟨entry,mem_entries.mp he,mem_entries.mp hk⟩
  · rintro ⟨entry,he,hk⟩
    exact ⟨(metric,entry),mem_entries.mpr he,(k,()),mem_entries.mpr hk,rfl⟩

theorem flatten_ascending (s : DefaultRouteState Id Addr) : s.flatten.Pairwise (· < ·) := by
  rw [flatten,pairwise_flatMap]
  constructor
  · intro e _
    rw [pairwise_map]
    refine e.2.ascending.imp fun {k k'} h => ?_
    exact Prod.Lex.toLex_lt_toLex.mpr (.inr ⟨rfl,h⟩)
  · refine s.metrics.ascending.imp fun {e e'} h => ?_
    intro a ha b hb
    obtain ⟨k,-,rfl⟩ := mem_map.mp ha
    obtain ⟨k',-,rfl⟩ := mem_map.mp hb
    exact Prod.Lex.toLex_lt_toLex.mpr (.inl h)

end DefaultRouteState

namespace Current
variable {c c' : Current Id Addr} {fam : Family}

omit [LinearOrder Id] [LinearOrder Addr] in
theorem mem_defaults {e : Id × Route Addr} :
    e ∈ c.defaults fam ↔ e ∈ c.routes ∧ e.2.isDefaultRoute = true ∧ e.2.family = fam := by
  simp [defaults]

/-- The best interface depends on the default routes and the interfaces that are up. -/
theorem best_congr (h : ∀ e, e ∈ c.defaults fam ↔ e ∈ c'.defaults fam) (hup : c.up = c'.up) :
    c.best fam = c'.best fam := by
  rw [best,best]
  congr 1
  apply min?_congr
  intro t
  simp only [mem_map,mem_filter,h,hup]

theorem report_self (h : c'.best fam = c.best fam) : c.report fam c' = none := if_pos h

end Current

/-- The tracker holds the default routes of its family, and has reported the best interface. -/
structure Tracks (fam : Family) (s : DefaultRouteState Id Addr) (c : Current Id Addr) : Prop where
  family : s.family = fam
  flatten : ∀ t, t ∈ s.flatten ↔ ∃ e ∈ c.defaults fam, Current.key e = t
  up : s.interfacesUp = c.up
  last : s.lastId = c.best fam

namespace Tracks
variable {s s' : DefaultRouteState Id Addr} {c c' : Current Id Addr} {fam : Family}

theorem new : Tracks fam (.new fam) (Current.empty : Current Id Addr) where
  family := rfl
  flatten t := by simp [DefaultRouteState.flatten,DefaultRouteState.new,OrdMap.empty,Current.defaults,Current.empty]
  up := rfl
  last := rfl

theorem updateBest (hfam : s.family = fam) (hflat : ∀ t, t ∈ s.flatten ↔ ∃ e ∈ c'.defaults fam, Current.key e = t)
    (hup : s.interfacesUp = c'.up) (hlast : s.lastId = c.best fam) :
    s.updateBest.1 = c.report fam c' ∧ Tracks fam s.updateBest.2 c' := by
  have hbest : (s.flatten.find? fun t => decide (DefaultRouteState.idOf t ∈ s.interfacesUp)).map
      DefaultRouteState.idOf = c'.best fam := by
    rw [← List.head?_filter,head?_eq_min? (s.flatten_ascending.filter _),Current.best]
    congr 1
    apply min?_congr
    intro t
    simp only [mem_filter,mem_map,hflat,hup,decide_eq_true_eq]
    constructor
    · rintro ⟨⟨e,he,rfl⟩,hid⟩
      exact ⟨e,⟨he,hid⟩,rfl⟩
    · rintro ⟨e,⟨he,hid⟩,rfl⟩
      exact ⟨⟨e,he,rfl⟩,hid⟩
  rw [DefaultRouteState.updateBest,hbest,hlast,hfam]
  by_cases heq : c'.best fam = c.best fam
  · rw [if_pos heq,Current.report_self heq]
    exact ⟨rfl,hfam,hflat,hup,hlast.trans heq.symm⟩
  · rw [if_neg heq,Current.report,if_neg heq]
    exact ⟨rfl,rfl,hflat,hup,rfl⟩

/-- Nothing is reported while the default routes and the interfaces stay. -/
theorem same (h : Tracks fam s c) (hflat : ∀ t, t ∈ s'.flatten ↔ t ∈ s.flatten) (hfam : s'.family = s.family)
    (hlast : s'.lastId = s.lastId) (hups : s'.interfacesUp = s.interfacesUp)
    (hdef : ∀ e, e ∈ c.defaults fam ↔ e ∈ c'.defaults fam) (hup : c.up = c'.up) :
    none = c.report fam c' ∧ Tracks fam s' c' := by
  have hbest := Current.best_congr hdef hup
  refine ⟨(Current.report_self hbest.symm).symm,hfam.trans h.family,fun t => ?_,hups.trans (h.up.trans hup),
    hlast.trans (h.last.trans hbest)⟩
  rw [hflat,h.flatten]
  simp only [hdef]

end Tracks

/-- An event that tells default routes apart as the trackers do: of the default routes on the interface with
the same gateways in some order only the very same route is there already. An interface goes when there is no
default route. -/
def Tame : Event Id Addr → Current Id Addr → Prop
  | .routeUpsert id route,c => Lone id route c
  | .routeRemoved id route,c => Lone id route c
  | .interfaceRemoved _,c => ∀ e ∈ c.routes, e.2.isDefaultRoute = false
  | _,_ => True
where
  Lone (id : Id) (route : Route Addr) (c : Current Id Addr) : Prop :=
    route.isDefaultRoute = true → ∀ e ∈ c.routes, e.1 = id → e.2.isDefaultRoute = true →
      e.2.family = route.family → sortGateways e.2.gateway = sortGateways route.gateway → e.2 = route

namespace Tracks
variable {s : DefaultRouteState Id Addr} {c : Current Id Addr} {fam : Family} {id : Id} {route : Route Addr}

/-- A route that is replaced or removed is a default route of a family when the new one is. -/
theorem sameRoute_eq {e : Id × Route Addr} (h : Current.sameRoute id route e = true) :
    e.1 = id ∧ e.2.isDefaultRoute = route.isDefaultRoute ∧ e.2.family = route.family ∧
      e.2.gateway = route.gateway := by
  obtain ⟨hid,huniq⟩ := of_decide_eq_true h
  have hdst : e.2.dst = route.dst := congrArg Prod.fst huniq
  have hgw : e.2.gateway = route.gateway := congrArg Prod.snd huniq
  refine ⟨hid,?_,?_,hgw⟩
  · rw [Route.isDefaultRoute,Route.isDefaultRoute,hdst,hgw]
  · rw [Route.family,Route.family,hdst]

omit [LinearOrder Id] in
/-- The tame route is the only one with its key. -/
theorem Lone.eq_of_key (hl : Tame.Lone id route c) (hd : route.isDefaultRoute = true) {e : Id × Route Addr}
    (he : e ∈ c.defaults route.family) (hk : e.1 = id)
    (hg : sortGateways e.2.gateway = sortGateways route.gateway) : e = (id,route) := by
  obtain ⟨hm,hdef,hfam⟩ := Current.mem_defaults.mp he
  exact Prod.ext hk (hl hd e hm hk hdef hfam hg)

omit [LinearOrder Id] in
theorem key_eq_iff {e : Id × Route Addr} : Current.key e = Current.key (id,route) ↔
    e.2.metric = route.metric ∧ e.1 = id ∧ sortGateways e.2.gateway = sortGateways route.gateway := by
  simp only [Current.key,toLex_inj,Prod.mk.injEq]

/-- A route that is not a default route of the family replaces none of them. -/
theorem sameRoute_of_other (h : ¬(route.isDefaultRoute = true ∧ route.family = fam)) {e : Id × Route Addr}
    (he : e ∈ c.defaults fam) : Current.sameRoute id route e = false := by
  obtain ⟨-,hd,hf⟩ := Current.mem_defaults.mp he
  rw [← Bool.not_eq_true]
  intro hs
  obtain ⟨-,hd',hf',-⟩ := sameRoute_eq hs
  exact h ⟨hd'.symm.trans hd,hf'.symm.trans hf⟩

/-- The route that a tame event replaces or removes is the very same one. -/
theorem Lone.sameRoute_iff (hl : Tame.Lone id route c) (hd : route.isDefaultRoute = true)
    {e : Id × Route Addr} (he : e ∈ c.defaults route.family) :
    Current.sameRoute id route e = true ↔ e = (id,route) := by
  constructor
  · intro hs
    obtain ⟨hid,-,-,hgw⟩ := sameRoute_eq hs
    exact Lone.eq_of_key hl hd he hid (by rw [hgw])
  · rintro rfl
    simp [Current.sameRoute]

theorem mem_defaults_upsert {e : Id × Route Addr} : e ∈ (c.next (.routeUpsert id route)).defaults fam ↔
    (e ∈ c.defaults fam ∧ Current.sameRoute id route e = false) ∨
      e = (id,route) ∧ route.isDefaultRoute = true ∧ route.family = fam := by
  simp only [Current.mem_defaults,Current.next,mem_append,mem_filter,mem_singleton,
    Bool.not_eq_true']
  constructor
  · rintro ⟨⟨hm,hs⟩ | rfl,hd,hf⟩
    · exact .inl ⟨⟨hm,hd,hf⟩,hs⟩
    · exact .inr ⟨rfl,hd,hf⟩
  · rintro (⟨⟨hm,hd,hf⟩,hs⟩ | ⟨rfl,hd,hf⟩)
    · exact ⟨.inl ⟨hm,hs⟩,hd,hf⟩
    · exact ⟨.inr rfl,hd,hf⟩

theorem mem_defaults_removed {e : Id × Route Addr} : e ∈ (c.next (.routeRemoved id route)).defaults fam ↔
    e ∈ c.defaults fam ∧ Current.sameRoute id route e = false := by
  simp only [Current.mem_defaults,Current.next,mem_filter,Bool.not_eq_true']
  tauto

theorem mem_flatten_add (s : DefaultRouteState Id Addr) (metric : ℕ) (k : DefaultRouteUnique Id Addr)
    (t : ℕ ×ₗ DefaultRouteUnique Id Addr) :
    t ∈ DefaultRouteState.flatten { s with metrics := (s.metrics.insert metric
        (((s.metrics.get metric).getD .empty).insert k ())) } ↔
      t ∈ s.flatten ∨ t = toLex (metric,k) := by
  obtain ⟨m,k'⟩ := t
  change toLex (m,k') ∈ _ ↔ toLex (m,k') ∈ _ ∨ toLex (m,k') = _
  rw [DefaultRouteState.mem_flatten,DefaultRouteState.mem_flatten]
  simp only [get_insert]
  by_cases hm : metric = m
  · subst hm
    cases hg : s.metrics.get metric with
    | none =>
      simp [get_insert,get_empty,eq_comm]
    | some entry =>
      by_cases hk : k = k' <;> simp [get_insert,hk,eq_comm]
  · have hne : ¬m = metric := fun h => hm h.symm
    simp [hm,hne]

theorem mem_flatten_remove {metric : ℕ} {entry : OrdMap (DefaultRouteUnique Id Addr) Unit}
    (hg : s.metrics.get metric = some entry) (k : DefaultRouteUnique Id Addr)
    (t : ℕ ×ₗ DefaultRouteUnique Id Addr) :
    t ∈ DefaultRouteState.flatten { s with metrics :=
        (if (entry.erase k).entries.isEmpty then s.metrics.erase metric
        else s.metrics.insert metric (entry.erase k)) } ↔
      t ∈ s.flatten ∧ t ≠ toLex (metric,k) := by
  obtain ⟨m,k'⟩ := t
  change toLex (m,k') ∈ _ ↔ toLex (m,k') ∈ _ ∧ toLex (m,k') ≠ _
  rw [DefaultRouteState.mem_flatten,DefaultRouteState.mem_flatten]
  by_cases hm : m = metric
  · subst hm
    have hne : toLex (m,k') ≠ toLex (m,k) ↔ k' ≠ k := by simp
    rw [hg,hne]
    split
    · rename_i hempty
      have hnone := entries_eq_nil.mp (isEmpty_iff.mp hempty) k'
      rw [get_erase] at hnone
      simp only [get_erase,if_true,reduceCtorEq,false_and,exists_false,Option.some.injEq,
        exists_eq_left',false_iff,not_and,not_not]
      intro hk
      by_contra hkk
      rw [if_neg hkk,hk] at hnone
      cases hnone
    · simp only [get_insert,if_true,Option.some.injEq,exists_eq_left',get_erase]
      by_cases hkk : k' = k <;> simp [hkk]
  · have hne : ¬metric = m := fun h => hm h.symm
    split <;> simp [get_erase,get_insert,hm,hne]

theorem skips_iff (h : Tracks fam s c) :
    (decide (route.family ≠ s.family) || !route.isDefaultRoute) = true ↔
      ¬(route.isDefaultRoute = true ∧ route.family = fam) := by
  rw [h.family]
  cases route.isDefaultRoute <;> simp

/-- Under the condition a default route is added to those that are there. -/
theorem mem_defaults_add (hl : Tame.Lone id route c) (hd : route.isDefaultRoute = true) (e : Id × Route Addr) :
    e ∈ (c.next (.routeUpsert id route)).defaults route.family ↔ e ∈ c.defaults route.family ∨ e = (id,route) := by
  rw [mem_defaults_upsert]
  constructor
  · rintro (⟨he,-⟩ | ⟨he,-⟩)
    · exact .inl he
    · exact .inr he
  · rintro (he | he)
    · by_cases hs : Current.sameRoute id route e = true
      · exact .inr ⟨(Lone.sameRoute_iff hl hd he).mp hs,hd,rfl⟩
      · exact .inl ⟨he,Bool.not_eq_true _ ▸ hs⟩
    · exact .inr ⟨he,hd,rfl⟩

/-- Under the condition the key of a default route is there when the route is. -/
theorem mem_defaults_of_key (h : Tracks route.family s c) (hl : Tame.Lone id route c)
    (hd : route.isDefaultRoute = true) (hk : Current.key (id,route) ∈ s.flatten) :
    (id,route) ∈ c.defaults route.family := by
  obtain ⟨e,he,hke⟩ := (h.flatten _).mp hk
  obtain ⟨-,hid,hgw⟩ := key_eq_iff.mp hke
  exact Lone.eq_of_key hl hd he hid hgw ▸ he

theorem addRoute (h : Tracks fam s c) (hl : Tame.Lone id route c) :
    (s.addRoute id route).1 = c.report fam (c.next (.routeUpsert id route)) ∧
      Tracks fam (s.addRoute id route).2 (c.next (.routeUpsert id route)) := by
  rw [DefaultRouteState.addRoute]
  by_cases hroute : route.isDefaultRoute = true ∧ route.family = fam
  · rw [if_neg (h.skips_iff.not.mpr (not_not.mpr hroute))]
    obtain ⟨hd,rfl⟩ := hroute
    have hflat := mem_flatten_add s route.metric (toLex (id,sortGateways route.gateway))
    have hdef := mem_defaults_add hl hd
    dsimp only
    split
    · -- the key is there already, so the route is
      rename_i hmod
      have hin : Current.key (id,route) ∈ s.flatten := by
        apply DefaultRouteState.mem_flatten.mpr
        cases hg : s.metrics.get route.metric with
        | none => simp [hg,get_empty] at hmod
        | some entry =>
          obtain ⟨u,hu⟩ := Option.isSome_iff_exists.mp (by simpa [hg] using hmod)
          exact ⟨entry,rfl,hu⟩
      have hthere := h.mem_defaults_of_key hl hd hin
      refine h.same (fun t => ?_) rfl rfl rfl (fun e => ?_) rfl
      · exact (hflat t).trans (or_iff_left_of_imp fun ht => ht ▸ hin)
      · exact ((hdef e).trans (or_iff_left_of_imp fun he => he ▸ hthere)).symm
    · refine Tracks.updateBest h.family (fun t => ?_) h.up h.last
      rw [hflat]
      simp only [hdef,h.flatten]
      constructor
      · rintro (⟨e,he,rfl⟩ | rfl)
        · exact ⟨e,.inl he,rfl⟩
        · exact ⟨_,.inr rfl,rfl⟩
      · rintro ⟨e,he | rfl,rfl⟩
        · exact .inl ⟨e,he,rfl⟩
        · exact .inr rfl
  · rw [if_pos (h.skips_iff.mpr hroute)]
    refine h.same (fun _ => Iff.rfl) rfl rfl rfl (fun e => ?_) rfl
    rw [mem_defaults_upsert]
    constructor
    · exact fun he => .inl ⟨he,sameRoute_of_other hroute he⟩
    · rintro (⟨he,-⟩ | ⟨-,hd,hf⟩)
      · exact he
      · exact absurd ⟨hd,hf⟩ hroute

/-- Under the condition a default route that is removed is told by its key. -/
theorem sameRoute_eq_false_iff (hl : Tame.Lone id route c) (hd : route.isDefaultRoute = true)
    {e : Id × Route Addr} (he : e ∈ c.defaults route.family) :
    Current.sameRoute id route e = false ↔ Current.key e ≠ Current.key (id,route) := by
  rw [← Bool.not_eq_true,Lone.sameRoute_iff hl hd he,not_iff_not]
  constructor
  · rintro rfl
    rfl
  · intro hk
    obtain ⟨-,hid,hgw⟩ := key_eq_iff.mp hk
    exact Lone.eq_of_key hl hd he hid hgw

theorem removeRoute_none (h : Tracks route.family s c) (hl : Tame.Lone id route c)
    (hd : route.isDefaultRoute = true) (hk : Current.key (id,route) ∉ s.flatten) :
    none = c.report route.family (c.next (.routeRemoved id route)) ∧
      Tracks route.family s (c.next (.routeRemoved id route)) := by
  refine h.same (fun _ => Iff.rfl) rfl rfl rfl (fun e => ?_) rfl
  rw [mem_defaults_removed]
  constructor
  · intro he
    refine ⟨he,(sameRoute_eq_false_iff hl hd he).mpr fun heq => ?_⟩
    exact hk ((h.flatten _).mpr ⟨e,he,heq⟩)
  · exact fun he => he.1

theorem removeRoute (h : Tracks fam s c) (hl : Tame.Lone id route c) :
    (s.removeRoute id route).1 = c.report fam (c.next (.routeRemoved id route)) ∧
      Tracks fam (s.removeRoute id route).2 (c.next (.routeRemoved id route)) := by
  rw [DefaultRouteState.removeRoute]
  by_cases hroute : route.isDefaultRoute = true ∧ route.family = fam
  · rw [if_neg (h.skips_iff.not.mpr (not_not.mpr hroute))]
    obtain ⟨hd,rfl⟩ := hroute
    have hmem := (DefaultRouteState.mem_flatten : Current.key (id,route) ∈ s.flatten ↔ _)
    cases hg : s.metrics.get route.metric with
    | none =>
      refine h.removeRoute_none hl hd fun hk => ?_
      obtain ⟨entry,hg',-⟩ := hmem.mp hk
      cases hg.symm.trans hg'
    | some entry =>
      dsimp only
      split
      · rename_i hmod
        refine h.removeRoute_none hl hd fun hk => ?_
        obtain ⟨entry',hg',hu⟩ := hmem.mp hk
        cases hg.symm.trans hg'
        simp [hu] at hmod
      · refine Tracks.updateBest h.family (fun t => ?_) h.up h.last
        rw [mem_flatten_remove hg,h.flatten]
        simp only [mem_defaults_removed]
        constructor
        · rintro ⟨⟨e,he,rfl⟩,hne⟩
          exact ⟨e,⟨he,(sameRoute_eq_false_iff hl hd he).mpr hne⟩,rfl⟩
        · rintro ⟨e,⟨he,hs⟩,rfl⟩
          exact ⟨⟨e,he,rfl⟩,(sameRoute_eq_false_iff hl hd he).mp hs⟩
  · rw [if_pos (h.skips_iff.mpr hroute)]
    refine h.same (fun _ => Iff.rfl) rfl rfl rfl (fun e => ?_) rfl
    rw [mem_defaults_removed]
    exact ⟨fun he => ⟨he,sameRoute_of_other hroute he⟩,fun he => he.1⟩

theorem updateInterfaceState (h : Tracks fam s c) (interface : Interface Id) :
    (s.updateInterfaceState interface.id interface.up).1 = c.report fam (c.next (.interfaceUpsert interface)) ∧
      Tracks fam (s.updateInterfaceState interface.id interface.up).2 (c.next (.interfaceUpsert interface)) := by
  rw [DefaultRouteState.updateInterfaceState,Current.next,← h.up]
  have hflat : ∀ up t, t ∈ s.flatten ↔
      ∃ e ∈ Current.defaults fam { c with up := up }, Current.key e = t := fun _ => h.flatten
  have hkeep : ∀ up, up = s.interfacesUp → none = c.report fam { c with up := up } ∧
      Tracks fam s { c with up := up } := by
    intro up hup
    exact h.same (fun _ => Iff.rfl) rfl rfl rfl (fun _ => Iff.rfl) (h.up.symm.trans hup.symm)
  by_cases hu : interface.up = true
  · rw [if_pos hu,if_pos hu]
    by_cases hin : interface.id ∈ s.interfacesUp
    · rw [if_pos hin]
      exact hkeep _ (Finset.insert_eq_of_mem hin)
    · rw [if_neg hin]
      exact Tracks.updateBest h.family (hflat _) rfl h.last
  · rw [if_neg hu,if_neg hu]
    by_cases hin : interface.id ∈ s.interfacesUp
    · rw [if_pos hin]
      exact Tracks.updateBest h.family (hflat _) rfl h.last
    · rw [if_neg hin]
      exact hkeep _ (Finset.erase_eq_of_notMem hin)

theorem removeInterface (h : Tracks fam s c) (hno : ∀ e ∈ c.routes, e.2.isDefaultRoute = false) :
    (s.removeInterface id).1 = c.report fam (c.next (.interfaceRemoved id)) ∧
      Tracks fam (s.removeInterface id).2 (c.next (.interfaceRemoved id)) := by
  have hnone : ∀ c' : Current Id Addr, (∀ e ∈ c'.routes, e ∈ c.routes) → c'.defaults fam = [] := by
    intro c' hsub
    apply filter_eq_nil_iff.mpr
    intro e he
    simp [hno e (hsub e he)]
  have hc := hnone c fun _ he => he
  have hc' := hnone (c.next (.interfaceRemoved id)) fun _ he => (mem_filter.mp he).1
  have hbest : (c.next (.interfaceRemoved id)).best fam = c.best fam := by
    rw [Current.best,Current.best,hc,hc']
    rfl
  -- no key is left at any metric
  have hkeys : ∀ e ∈ s.metrics.entries, e.2.entries = [] := by
    intro e he
    apply eq_nil_iff_forall_not_mem.mpr
    intro k hk
    have hin : toLex (e.1,k.1) ∈ s.flatten :=
      DefaultRouteState.mem_flatten.mpr ⟨e.2,mem_entries.mp he,mem_entries.mp hk⟩
    simp [h.flatten,hc] at hin
  have hmod : (s.metrics.entries.any fun e => e.2.entries.any fun k => decide ((ofLex k.1).1 = id)) = false := by
    apply any_eq_false.mpr
    intro e he
    simp [hkeys e he]
  rw [DefaultRouteState.removeInterface]
  simp only [hmod,Bool.not_false,if_true]
  refine ⟨(Current.report_self hbest).symm,h.family,fun t => ?_,?_,h.last.trans hbest.symm⟩
  · rw [hc']
    simp only [not_mem_nil,false_and,exists_false,iff_false]
    intro ht
    obtain ⟨entry,hg,-⟩ := DefaultRouteState.mem_flatten.mp (show toLex (ofLex t) ∈ _ from ht)
    rw [get_filterMap] at hg
    obtain ⟨old,hold,hsome⟩ := Option.bind_eq_some_iff.mp hg
    have hnil : old.entries = [] := hkeys _ (mem_entries.mpr hold)
    simp [OrdMap.filterMap,hnil] at hsome
  · exact congrArg (Finset.erase · id) h.up

/-- One event: the tracker reports what is due. -/
theorem ingest (h : Tracks fam s c) {event : Event Id Addr} (ht : Tame event c) :
    (s.ingest true event).1 = c.report fam (c.next event) ∧ Tracks fam (s.ingest true event).2 (c.next event) := by
  have hsame : none = c.report fam c ∧ Tracks fam s c :=
    h.same (fun _ => Iff.rfl) rfl rfl rfl (fun _ => Iff.rfl) rfl
  cases event with
  | addrUpsert id net => exact hsame
  | addrRemoved id net => exact hsame
  | interfaceUpsert interface => exact h.updateInterfaceState interface
  | interfaceRemoved id => exact h.removeInterface ht
  | routeUpsert id route => exact h.addRoute ht
  | routeRemoved id route => exact h.removeRoute ht
  | defaultRouteInterface id family => exact hsame

end Tracks

/-- Items that are errors or reports of a monitor change nothing. -/
def TameItem {ε : Type} : Except ε (Event Id Addr) → Current Id Addr → Prop
  | .error _,_ => True
  | .ok event,c => isDefaultRouteInterface event = false → Tame event c

/-- The trackers of both families follow the routes that are there. -/
def Follows (s : Trackers Id Addr) (c : Current Id Addr) : Prop := Tracks .v4 s.1 c ∧ Tracks .v6 s.2 c

theorem Follows.step {ε : Type} (x : Except ε (Event Id Addr)) (s : Trackers Id Addr) (c : Current Id Addr)
    (h : Follows s c) (ht : TameItem x c) :
    (withDefaultRouteEvents true x s).1 = (Current.step x c).1 ∧
      Follows (withDefaultRouteEvents true x s).2 (Current.step x c).2 := by
  cases x with
  | error e => exact ⟨rfl,h⟩
  | ok event =>
    by_cases hd : isDefaultRouteInterface event = true
    · simp only [withDefaultRouteEvents,Current.step,hd,if_true]
      exact ⟨trivial,h⟩
    · have ht' := ht (Bool.not_eq_true _ ▸ hd)
      obtain ⟨he1,h4⟩ := h.1.ingest ht'
      obtain ⟨he2,h6⟩ := h.2.ingest ht'
      simp only [withDefaultRouteEvents,Current.step,hd,Bool.false_eq_true,if_false,he1,he2]
      exact ⟨trivial,h4,h6⟩

/-- In a run whose events are all tame, the trackers have at every point reported the interface of the least
default route that is up, and they report when it changes. -/
theorem reports_of_tame {ε : Type} (items : List (Except ε (Event Id Addr)))
    (ht : AtEveryInput Current.step TameItem items Current.empty) (first rest : List (Except ε (Event Id Addr)))
    (happ : items = first ++ rest) :
    let code := specAll (withDefaultRouteEvents true) first Trackers.new
    let current := specAll Current.step first Current.empty
    code.1 = current.1 ∧ code.2.1.lastId = current.2.best .v4 ∧ code.2.2.lastId = current.2.best .v6 := by
  intro code current
  subst happ
  have hnew : Follows (Trackers.new : Trackers Id Addr) Current.empty := ⟨Tracks.new,Tracks.new⟩
  obtain ⟨hout,h4,h6⟩ := specAll_refines Follows Follows.step first hnew ht.first
  exact ⟨hout,h4.last,h6.last⟩

end

def defaultVia (gateway metric : ℕ) : Route ℕ := ⟨.ofV4 0 0 0 0 0,[gateway],metric⟩

def twoRoutes : List (Except Unit (Event ℕ ℕ)) :=
  [.ok (.interfaceUpsert ⟨1,true,"eth0",none,none⟩),.ok (.interfaceUpsert ⟨2,true,"wlan0",none,none⟩),
    .ok (.routeUpsert 1 (defaultVia 7 100)),.ok (.routeUpsert 2 (defaultVia 8 600))]

theorem reports_of_tame_two :
    (specAll (withDefaultRouteEvents true) twoRoutes Trackers.new).2.1.lastId = some 1 := by
  have ht : AtEveryInput Current.step TameItem twoRoutes Current.empty := by
    simp [twoRoutes,AtEveryInput,TameItem,Tame,Tame.Lone,Current.step,Current.next,Current.empty,
      isDefaultRouteInterface]
  exact (reports_of_tame twoRoutes ht twoRoutes [] (append_nil _).symm).2.1.trans (by decide)

/-- With the interface that has the default route goes the other one's route. -/
theorem removed_interface_loses_routes :
    let items := twoRoutes ++ [.ok (.interfaceRemoved 1)]
    (specAll Current.step items Current.empty).2.best .v4 = some 2 ∧
      (specAll (withDefaultRouteEvents true) items Trackers.new).2.1.lastId = none := by
  decide

-- a route whose metric has changed still counts with the old one
example :
    let items := twoRoutes ++ [.ok (.routeUpsert 1 (defaultVia 7 700))]
    (specAll Current.step items Current.empty).2.best .v4 = some 2 ∧
      (specAll (withDefaultRouteEvents true) items Trackers.new).2.1.lastId = some 1 := by
  decide

end Tailnet.Netmon
