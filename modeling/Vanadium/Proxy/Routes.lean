import Mathlib

/-!
# Routes through a chain of proxies

Each proxy listens through the one before it, and a server through the last. Endpoints travel down
the chain, and each proxy adds the routing id of the next one as a route. A `Setup` message that
reaches the owner of an endpoint's address follows these routes, and each proxy takes one off.
-/

namespace Vanadium.Xproxy

abbrev RoutingID : Type := BitVec 128
abbrev Addr : Type := String × String

/-- An endpoint. Its routes are routing ids in writing, which `FromString` reads back. -/
structure Endpoint where
  addr : Addr
  routes : List RoutingID
  routingID : RoutingID
deriving DecidableEq

/-- The protocol and address of a manager that listens nowhere. -/
def bidi : Addr := ("bidi", "")

/-- The proxies up to `last`, and the server as the node after it. Routing ids are unique, and so is
the owner of an address. -/
structure Chain where
  last : ℕ
  rid : ℕ → RoutingID
  rid_inj : ∀ j ≤ last + 1, ∀ k ≤ last + 1, rid j = rid k → j = k
  server_ne : rid (last + 1) ≠ 0
  owner : Addr → Option ℕ
  owner_bidi : owner bidi = none

/-- The error for no endpoints does not occur: there is always one of `Status`. -/
def returnEndpoints (eps : List Endpoint) (rid : RoutingID) (route : Option RoutingID) :
    List Endpoint :=
  eps.map fun ep ↦
    { ep with
      routingID := if rid ≠ 0 then rid else ep.routingID
      routes := ep.routes ++ route.toList }

/-- The routing id that a proxy dials for a `Setup` message, and the endpoint in the message it
sends. -/
def dialNextHop (ep : Endpoint) : RoutingID × Endpoint :=
  match ep.routes with
  | [] => (ep.routingID, ep)
  | route :: routes => (route, { ep with routes := routes })

namespace Chain

variable (c : Chain)

/-- `Status` of the manager of a proxy that listens on the given addresses. -/
def status (k : ℕ) (addrs : List Addr) : List Endpoint :=
  (if addrs = [] then [bidi] else addrs).map (⟨·, [], c.rid k⟩)

/-- `replyToServer` by the last proxy, `replyToProxy` by the others. -/
def reply (k : ℕ) (addrs : List Addr) (proxyEndpoints : List Endpoint) : List Endpoint :=
  let eps := c.status k addrs ++ proxyEndpoints
  if k = c.last then returnEndpoints eps (c.rid (k + 1)) none
  else returnEndpoints eps 0 (some (c.rid (k + 1)))

/-- The responses that a proxy may send: it listens on some of its addresses at the time, and holds
no endpoints of the proxy before it or those of one of its responses. -/
inductive Responds : ℕ → List Endpoint → Prop
  | alone {k : ℕ} {addrs : List Addr} (hown : ∀ a ∈ addrs, c.owner a = some k) :
    Responds k (c.reply k addrs [])
  | through {k : ℕ} {addrs : List Addr} {eps : List Endpoint} (hlt : k < c.last)
      (h : Responds k eps)
    (hown : ∀ a ∈ addrs, c.owner a = some (k + 1)) : Responds (k + 1) (c.reply (k + 1) addrs eps)

/-- A proxy has connections to the node before and the node after it. The message goes to the one
with the routing id. -/
def hop (k : ℕ) (ep : Endpoint) : Option (ℕ × Endpoint) :=
  ([k - 1, k + 1].find? (c.rid · = (dialNextHop ep).1)).map (·, (dialNextHop ep).2)

/-- The node and the message after some hops. -/
def forward : ℕ → ℕ → Endpoint → Option (ℕ × Endpoint)
  | 0, k, ep => some (k, ep)
  | j + 1, k, ep => (c.hop k ep).bind fun x ↦ forward j x.1 x.2

/-- The routes from a proxy to a later one. -/
def routes (i k : ℕ) : List RoutingID := (List.range' (i + 1) (k - i)).map c.rid

/-- An endpoint has the routes from the owner of its address. -/
def Leads (k : ℕ) (ep : Endpoint) : Prop :=
  ∀ i, c.owner ep.addr = some i → i ≤ k ∧ ep.routes = c.routes i k

variable {c} {i k : ℕ} {ep : Endpoint} {addrs : List Addr} {eps : List Endpoint}

theorem drop_routes (j : ℕ) : (c.routes i k).drop j = c.routes (i + j) k := by
  rw [routes, routes, ← List.map_drop, List.drop_range', Nat.add_right_comm, Nat.sub_sub, mul_one]

theorem routes_concat (h : i ≤ k) : c.routes i (k + 1) = c.routes i k ++ [c.rid (k + 1)] := by
  rw [routes, routes, Nat.sub_add_comm h, List.range'_concat]
  simp [show i + 1 + (k - i) = k + 1 by omega]

theorem leads_status (hown : ∀ a ∈ addrs, c.owner a = some k) (hep : ep ∈ c.status k addrs) :
    c.Leads k ep := by
  intro i hi
  obtain ⟨a, ha, rfl⟩ := List.mem_map.mp hep
  split at ha
  · obtain rfl := List.mem_singleton.mp ha
    exact nomatch c.owner_bidi.symm.trans hi
  · obtain rfl := Option.some.inj ((hown a ha).symm.trans hi)
    exact ⟨le_rfl, by simp [routes]⟩

theorem leads_reply (hk : k ≠ c.last) (h : ∀ ep ∈ c.status k addrs ++ eps, c.Leads k ep)
    (hep : ep ∈ c.reply k addrs eps) : c.Leads (k + 1) ep := by
  rw [reply, if_neg hk] at hep
  obtain ⟨ep, hmem, rfl⟩ := List.mem_map.mp hep
  intro i hi
  obtain ⟨hle, hroutes⟩ := h ep hmem i hi
  refine ⟨hle.trans (Nat.le_succ k), ?_⟩
  rw [routes_concat hle, ← hroutes]
  rfl

theorem Responds.leads (h : c.Responds k eps) :
    ∃ addrs peps, eps = c.reply k addrs peps ∧ ∀ ep ∈ c.status k addrs ++ peps, c.Leads k ep := by
  induction h with
  | alone hown => exact ⟨_, _, rfl, fun ep hep ↦ leads_status hown (by simpa using hep)⟩
  | through hlt _ hown ih =>
    obtain ⟨addrs, peps, rfl, hleads⟩ := ih
    refine ⟨_, _, rfl, fun ep hep ↦ ?_⟩
    rcases List.mem_append.mp hep with hep | hep
    · exact leads_status hown hep
    · exact leads_reply hlt.ne hleads hep

theorem hop_next (h : i ≤ c.last) (hroutes : ep.routes = c.routes i c.last)
    (hid : ep.routingID = c.rid (c.last + 1)) :
    c.hop i ep = some (i + 1, { ep with routes := ep.routes.drop 1 }) := by
  have hdial : dialNextHop ep = (c.rid (i + 1), { ep with routes := ep.routes.drop 1 }) := by
    obtain ⟨addr, routes, rid⟩ := ep
    subst hroutes hid
    rcases h.lt_or_eq with hlt | rfl
    · have hcons : c.routes i c.last = c.rid (i + 1) :: c.routes (i + 1) c.last := by
        rw [routes, show c.last - i = c.last - (i + 1) + 1 by omega, List.range'_succ,
          List.map_cons, routes]
      simp [dialNextHop, hcons]
    · simp [dialNextHop, routes]
  -- the node before has another routing id
  have hne : c.rid (i - 1) ≠ c.rid (i + 1) := by
    intro heq
    have := c.rid_inj _ (by omega) _ (by omega) heq
    omega
  simp [hop, hdial, hne]

theorem forward_routes (i j : ℕ) (ep : Endpoint) (h : i + j ≤ c.last + 1)
    (hroutes : ep.routes = c.routes i c.last) (hid : ep.routingID = c.rid (c.last + 1)) :
    c.forward j i ep = some (i + j, { ep with routes := ep.routes.drop j }) := by
  induction j generalizing i ep with
  | zero => rfl
  | succ j ih =>
    have hrest : ep.routes.drop 1 = c.routes (i + 1) c.last := by rw [hroutes, drop_routes]
    rw [forward, hop_next (by omega) hroutes hid, Option.bind_some]
    refine (ih (i + 1) { ep with routes := ep.routes.drop 1 } (by omega) hrest hid).trans ?_
    rw [List.drop_drop, Nat.add_right_comm, Nat.add_assoc, Nat.add_comm 1 j]

/-- **Routes lead back to the server.** A message to an endpoint that the last proxy returns goes
from the owner of its address through the proxies after it in order, loses a route at each, and
comes to the server without one. -/
theorem forward_to_server (c : Chain) {eps : List Endpoint} (h : c.Responds c.last eps)
    {ep : Endpoint} (hep : ep ∈ eps) {i : ℕ} (hi : c.owner ep.addr = some i) :
    i ≤ c.last ∧ ep.routes.length = c.last - i ∧ ∀ j, i + j ≤ c.last + 1 →
      c.forward j i ep = some (i + j, { ep with routes := ep.routes.drop j }) := by
  obtain ⟨addrs, peps, rfl, hleads⟩ := h.leads
  rw [reply, if_pos rfl] at hep
  obtain ⟨ep, hmem, rfl⟩ := List.mem_map.mp hep
  obtain ⟨hle, hroutes⟩ := hleads ep hmem i hi
  have hroutes : ep.routes ++ [] = c.routes i c.last := by rw [hroutes, List.append_nil]
  refine ⟨hle, ?_, fun j hj ↦ forward_routes i j _ hj hroutes (if_pos c.server_ne)⟩
  change (ep.routes ++ []).length = _
  simp [hroutes, routes]

/-- Two proxies, of which the first owns every address. -/
def twoProxies : Chain where
  last := 1
  rid k := .ofNat 128 (k + 1)
  rid_inj := by decide
  server_ne := by decide
  owner a := if a = bidi then none else some 0
  owner_bidi := rfl

theorem forward_to_server_two : ∃ ep ∈ twoProxies.reply 1 [] (twoProxies.reply 0 [("tcp", "a")] []),
    twoProxies.owner ep.addr = some 0 ∧ 0 ≤ 1 ∧ ep.routes.length = 1 - 0 ∧ ∀ j, 0 + j ≤ 1 + 1 →
      twoProxies.forward j 0 ep = some (0 + j, { ep with routes := ep.routes.drop j }) := by
  have hresponds : twoProxies.Responds 1
    (twoProxies.reply 1 [] (twoProxies.reply 0 [("tcp", "a")] [])) :=
    .through (by decide) (.alone (by decide)) (by simp)
  have hmem : ⟨("tcp", "a"), [2], 3⟩ ∈ twoProxies.reply 1 []
    (twoProxies.reply 0 [("tcp", "a")] []) := by
    decide
  exact ⟨_, hmem, rfl, forward_to_server twoProxies hresponds hmem rfl⟩

end Chain

end Vanadium.Xproxy
