import Vanadium.Foundations.Table

/-!
# The connection cache

`ConnCache` of the flow manager: connections by routing id, address and path, and the reservations
of those who dial. Every method is one critical section under `c.mu`, except that a `Find` may wait
on `c.cond` between two of them.

What a method asks a connection (its status, whether it is idle, its round trip time) is given by a
`View`, which may be another one each time an entry is visited. Reservations and waiting `Find`
calls have numbers, and `cancelled` lists the calls of the reservations' `CancelFunc`s.
-/

namespace Vanadium.Manager

open Foundations

/-! ## Keys -/

/-- What is used of `naming.RoutingID`. -/
class RoutingID (ρ : Type) where
  null : ρ
  string : ρ → List Char

/-- The parts of `naming.Endpoint` that are used. -/
structure Endpoint (ρ : Type) where
  protocol : List Char
  address : List Char
  routingID : ρ
deriving DecidableEq

inductive Key (ρ : Type)
  | rid (r : ρ)
  | text (s : List Char)
deriving DecidableEq

variable {ρ γ ε : Type} [DecidableEq ρ] [RoutingID ρ] [DecidableEq γ]

def key (protocol address : List Char) : Key ρ := .text (protocol ++ [','] ++ address)

def pathkey (protocol address : List Char) (rid : ρ) : Key ρ :=
  .text (protocol ++ [','] ++ address ++ [','] ++ RoutingID.string rid)

/-! ## The cache -/

/-- `conn.Status`. -/
inductive Status
  | active
  | enteringLameDuck
  | lameDuckAcknowledged
  | closing
  | closed
deriving DecidableEq

/-- The comparison with `Closing` in the order of the constants. -/
def Status.isClosing : Status → Bool
  | closing | closed => true
  | _ => false

/-- What the connections answer. -/
structure View (γ : Type) where
  status : γ → Status
  isEncapsulated : γ → Bool
  closeIfIdle : γ → Bool
  remoteLameDuck : γ → Bool
  rtt : γ → ℕ
  lastUsed : γ → ℕ

/-- What they answer during a call of `rttEntriesLocked`, at each position of the list of each
key. -/
abbrev Views (γ : Type) : Type := ℕ → ℕ → View γ

structure ConnEntry (ρ γ : Type) where
  conn : γ
  rid : ρ
  proxy : Bool
  /-- The reservation whose context is cancelled with the entry. -/
  cancel : Option ℕ
  keys : List (Key ρ)
deriving DecidableEq

structure DialError (ε : Type) where
  err : ε
  when : ℕ

/-- `Reservation`; its `cancel` is set to `nil` in `Unreserve` only, which ends it. -/
structure Reservation (ρ : Type) where
  keys : List (Key ρ)
  remote : Endpoint ρ
  waitForProxy : Bool
deriving DecidableEq

/-- A `Find` that waits on `c.cond`. -/
structure Waiter (ρ : Type) where
  keys : List (Key ρ)
  woken : Bool
deriving DecidableEq

structure ConnCache (ρ γ ε : Type) where
  /-- The maps are `nil`. -/
  closed : Bool
  conns : Table γ (ConnEntry ρ γ)
  cache : Table (Key ρ) (List (ConnEntry ρ γ))
  errors : Table (Key ρ) (DialError ε)
  reserved : Table (Key ρ) ℕ
  /-- The reservations that were made and not given back. -/
  outstanding : Table ℕ (Reservation ρ)
  nextReservation : ℕ
  /-- The calls of the reservations' `cancel`. -/
  cancelled : List ℕ
  waiters : Table ℕ (Waiter ρ)

def maxErrorAge : ℕ := 5 * 60

def newConnCache : ConnCache ρ γ ε where
  closed := false
  conns := ∅
  cache := ∅
  errors := ∅
  reserved := ∅
  outstanding := ∅
  nextReservation := 0
  cancelled := []
  waiters := ∅

/-- The swap in place, with the last entry, of the first `entry` in the slice. -/
def removeEntryFromSlice {α : Type} [DecidableEq α] (entries : List α) (entry : α) : List α :=
  if entry ∈ entries then
    (entries.set (entries.idxOf entry) (entries.getLastD entry)).dropLast
  else entries

namespace ConnCache

/-- `c.cache[k]`. -/
def cacheAt (c : ConnCache ρ γ ε) (k : Key ρ) : List (ConnEntry ρ γ) := (c.cache.lookup k).getD []

/-- A call of a `CancelFunc`, if there is one. -/
def callCancel (c : ConnCache ρ γ ε) (cancel : Option ℕ) : ConnCache ρ γ ε :=
  { c with cancelled := c.cancelled ++ cancel.toList }

/-- `c.cond.Broadcast`. -/
def broadcast (c : ConnCache ρ γ ε) : ConnCache ρ γ ε :=
  { c with waiters := c.waiters.mapVals fun _ w ↦ { w with woken := true } }

/-- The keys of a new entry. -/
def entryKeys (remote ep : Endpoint ρ) (keyByAddr : Bool) : List (Key ρ) :=
  let kdialed := key remote.protocol remote.address
  let kresolved := key ep.protocol ep.address
  (if ep.routingID ≠ RoutingID.null then [.rid ep.routingID] else []) ++
    (if keyByAddr then [kdialed] else []) ++
    [pathkey remote.protocol remote.address ep.routingID] ++
    (if kresolved ≠ kdialed then
      (if keyByAddr then [kresolved] else []) ++ [pathkey ep.protocol ep.address ep.routingID]
    else [])

/-- Append an entry to one list of the cache. -/
def appendAt (c : ConnCache ρ γ ε) (entry : ConnEntry ρ γ) (k : Key ρ) : ConnCache ρ γ ε :=
  { c with cache := c.cache.insert k (c.cacheAt k ++ [entry]) }

/-- Add an entry to the lists of its keys and to the connections. -/
def addEntry (c : ConnCache ρ γ ε) (entry : ConnEntry ρ γ) : ConnCache ρ γ ε :=
  let c := entry.keys.foldl (fun c k ↦ c.appendAt entry k) c
  { c with conns := c.conns.insert entry.conn entry }

/-- `insertConnLocked`, for a connection with the remote endpoint `ep`. -/
def insertConnLocked (c : ConnCache ρ γ ε) (remote : Endpoint ρ) (conn : γ) (ep : Endpoint ρ)
    (proxy keyByAddr : Bool) (cancel : Option ℕ) : ConnCache ρ γ ε × Bool :=
  if (c.conns.lookup conn).isSome then (c, false)
  else
    (c.addEntry
      { conn := conn, rid := ep.routingID, proxy := proxy, cancel := cancel,
        keys := entryKeys remote ep keyByAddr }, true)

/-- Remove an entry from one list of the cache. -/
def removeAt (c : ConnCache ρ γ ε) (entry : ConnEntry ρ γ) (k : Key ρ) : ConnCache ρ γ ε :=
  match c.cache.lookup k with
  | none => c
  | some entries =>
    let entries := removeEntryFromSlice entries entry
    { c with
      cache := if entries.length = 0 then c.cache.erase k else c.cache.insert k entries }

def removeEntryLocked (c : ConnCache ρ γ ε) (entry : ConnEntry ρ γ) : ConnCache ρ γ ε :=
  let c := entry.keys.foldl (fun c k ↦ c.removeAt entry k) c
  { c with conns := c.conns.erase entry.conn }.callCancel entry.cancel

/-! ## Reservations -/

/-- A new reservation. -/
def addReservation (c : ConnCache ρ γ ε) (res : Reservation ρ) : ConnCache ρ γ ε × Option ℕ :=
  ({ c with
    reserved := res.keys.foldl (fun t k ↦ t.insert k c.nextReservation) c.reserved
    outstanding := c.outstanding.insert c.nextReservation res
    nextReservation := c.nextReservation + 1 }, some c.nextReservation)

def reserve (c : ConnCache ρ γ ε) (remote : Endpoint ρ) : ConnCache ρ γ ε × Option ℕ :=
  if remote.protocol = ['b', 'i', 'd', 'i'] then (c, none)
  else if c.closed then (c, none)
  else
    let k := key remote.protocol remote.address
    if remote.routingID = RoutingID.null then
      if 0 < (c.cacheAt k).length ∨ (c.reserved.lookup k).isSome then (c, none)
      else c.addReservation { keys := [k], remote := remote, waitForProxy := false }
    else
      let pk := pathkey remote.protocol remote.address remote.routingID
      if (c.cacheAt k).length = 0 ∧ (c.reserved.lookup k).isNone then
        c.addReservation { keys := [k, pk], remote := remote, waitForProxy := false }
      else if (c.cacheAt pk).length = 0 ∧ (c.reserved.lookup pk).isNone then
        c.addReservation { keys := [pk], remote := remote, waitForProxy := true }
      else (c, none)

/-- The proxy's connection in `Unreserve`: the cache and what is left of `r.cancel`. -/
def insertProxyConn (c : ConnCache ρ γ ε) (remote : Endpoint ρ) (cancel : Option ℕ) :
    Option (γ × Endpoint ρ) → ConnCache ρ γ ε × Option ℕ
  | none => (c, cancel)
  | some (g, ep) =>
    let (c, inserted) := c.insertConnLocked remote g ep true true cancel
    (c, if inserted then none else cancel)

/-- The connections and the error in `Unreserve`: the cache and what is left of `r.cancel`. -/
def unreserveConns (c : ConnCache ρ γ ε) (remote : Endpoint ρ) (cancel : Option ℕ)
    (conn proxyConn : Option (γ × Endpoint ρ)) (err : Option ε) (now : ℕ) :
    ConnCache ρ γ ε × Option ℕ :=
  let (c, cancel) := c.insertProxyConn remote cancel proxyConn
  match conn with
  | some (g, ep) =>
    ((c.insertConnLocked remote g ep proxyConn.isSome proxyConn.isNone cancel).1, none)
  | none =>
    match err with
    | none => (c, cancel)
    | some err =>
      ({ c with
        errors := (c.errors.insert (key remote.protocol remote.address) ⟨err, now⟩).insert
          (.rid remote.routingID) ⟨err, now⟩ }, cancel)

/-- `Unreserve` of a reservation: the cache and whether it was closed. -/
def unreserve (c : ConnCache ρ γ ε) (r : ℕ) (res : Reservation ρ)
    (conn proxyConn : Option (γ × Endpoint ρ)) (err : Option ε) (now : ℕ) :
    ConnCache ρ γ ε × Bool :=
  let c := { c with outstanding := c.outstanding.erase r }
  if c.closed then (c.callCancel (some r), true)
  else
    let c := { c with reserved := res.keys.foldl (fun t k ↦ t.erase k) c.reserved }
    let (c, cancel) := c.unreserveConns res.remote (some r) conn proxyConn err now
    ((c.callCancel cancel).broadcast, false)

/-! ## Finding connections -/

/-- One iteration of the loop over `found`, the slice of the key `k` at its start. Entries are
removed from `c.cache[k]` in place, which changes the array under `found`. -/
def visitFound (view : View γ) (k : Key ρ)
    (s : ConnCache ρ γ ε × List (ConnEntry ρ γ) × List (ConnEntry ρ γ)) (j : ℕ) :
    ConnCache ρ γ ε × List (ConnEntry ρ γ) × List (ConnEntry ρ γ) :=
  let (c, found, entries) := s
  match found[j]? with
  | none => s
  | some e =>
    if (view.status e.conn).isClosing then
      let c := c.removeEntryLocked e
      (c, c.cacheAt k ++ found.drop (c.cacheAt k).length, entries)
    else if view.remoteLameDuck e.conn then s
    else (c, found, entries ++ [e])

/-- `rttEntriesLocked` for one key. -/
def rttEntriesKey (view : ℕ → View γ) (s : ConnCache ρ γ ε × List (ConnEntry ρ γ) × Option ε)
    (k : Key ρ) : ConnCache ρ γ ε × List (ConnEntry ρ γ) × Option ε :=
  let (c, entries, firstError) := s
  let found := c.cacheAt k
  if 0 < found.length then
    let (c, _, entries) := (List.range found.length).foldl (fun s j ↦ visitFound (view j) k s j)
      (c, found, entries)
    (c, entries, firstError)
  else (c, entries, firstError.or ((c.errors.lookup k).map DialError.err))

/-- `rttEntriesLocked`; the entries are sorted by what the connections answer after the last key. -/
def rttEntriesLocked (c : ConnCache ρ γ ε) (view : Views γ) (keys : List (Key ρ)) :
    ConnCache ρ γ ε × List (ConnEntry ρ γ) × Option ε :=
  let (c, entries, firstError) := keys.zipIdx.foldl (fun s k ↦ rttEntriesKey (view k.2) s k.1)
    (c, [], none)
  let rtt := (view keys.length 0).rtt
  (c, entries.insertionSort fun e e' ↦ rtt e.conn ≤ rtt e'.conn, firstError)

def hasReservationsLocked (c : ConnCache ρ γ ε) (keys : List (Key ρ)) : Bool :=
  keys.any fun k ↦ (c.reserved.lookup k).isSome

/-- What a round of the loop of `internalFind` comes to. -/
inductive Found (ρ γ ε : Type)
  | cacheClosed
  | entries (es : List (ConnEntry ρ γ)) (err : Option ε)
  | wait

/-- A round of the loop of `internalFind`. -/
def findRound (c : ConnCache ρ γ ε) (keys : List (Key ρ)) (wait : Bool) (view : Views γ) :
    ConnCache ρ γ ε × Found ρ γ ε :=
  if c.closed then (c, .cacheClosed)
  else
    let (c, entries, err) := c.rttEntriesLocked view keys
    if 0 < entries.length ∨ wait = false ∨ c.hasReservationsLocked keys = false then
      (c, .entries entries err)
    else (c, .wait)

/-- `internalFind` of the caller `t` runs a round. -/
def internalFind (c : ConnCache ρ γ ε) (t : ℕ) (keys : List (Key ρ)) (wait : Bool)
    (view : Views γ) : ConnCache ρ γ ε :=
  match c.findRound keys wait view with
  | (c, .wait) => { c with waiters := c.waiters.insert t ⟨keys, false⟩ }
  | (c, _) => { c with waiters := c.waiters.erase t }

/-! ## Closing connections -/

/-- The first loop of `KillConnections`: undialable connections are removed, and those in lame duck
mode that are idle. -/
def killDead (view : View γ) (s : ConnCache ρ γ ε × ℤ × List (ConnEntry ρ γ))
    (e : ConnEntry ρ γ) : ConnCache ρ γ ε × ℤ × List (ConnEntry ρ γ) :=
  let (c, num, kept) := s
  if (view.status e.conn).isClosing then (c.removeEntryLocked e, num, kept)
  else if view.status e.conn = .lameDuckAcknowledged ∧ view.closeIfIdle e.conn then
    (c.removeEntryLocked e, num - 1, kept)
  else (c, num, kept ++ [e])

/-- The second loop of `KillConnections`: idle connections are removed. -/
def killIdle (view : View γ) (s : ConnCache ρ γ ε × ℤ × List (ConnEntry ρ γ))
    (e : ConnEntry ρ γ) : ConnCache ρ γ ε × ℤ × List (ConnEntry ρ γ) :=
  let (c, num, kept) := s
  if 0 < num ∧ view.isEncapsulated e.conn = false ∧ view.closeIfIdle e.conn then
    (c.removeEntryLocked e, num - 1, kept)
  else if view.isEncapsulated e.conn = false then (c, num, kept ++ [e])
  else (c, num, kept)

/-- `KillConnections`; `entries` are the entries of `c.conns` in the order of the iteration, and the
loops have a view each. -/
def killConnections (c : ConnCache ρ γ ε) (entries : List (ConnEntry ρ γ)) (num : ℤ)
    (first second : View γ) (now : ℕ) : ConnCache ρ γ ε :=
  if c.closed then c
  else
    let c := { c with
      errors := c.errors.entries.foldl
        (fun t e ↦ if e.2.when + maxErrorAge < now then t.erase e.1 else t) c.errors }
    let (c, num, entries) := entries.foldl (killDead first) (c, num, [])
    let (c, num, entries) := entries.foldl (killIdle second) (c, num, [])
    if num ≤ 0 then c
    else
      ((entries.insertionSort fun e e' ↦ second.lastUsed e.conn ≤ second.lastUsed e'.conn).take
        num.toNat).foldl removeEntryLocked c

def close (c : ConnCache ρ γ ε) : ConnCache ρ γ ε :=
  { c with
    closed := true
    conns := ∅
    cache := ∅
    errors := ∅
    reserved := ∅
    cancelled := c.cancelled ++ (c.conns.entries.filterMap fun e ↦ e.2.cancel) ++
      c.reserved.entries.map fun e ↦ e.2 }

/-! ## Steps -/

end ConnCache

inductive Action (ρ γ ε : Type)
  | reserve (remote : Endpoint ρ)
  | unreserve (r : ℕ) (conn proxyConn : Option (γ × Endpoint ρ)) (err : Option ε) (now : ℕ)
  /-- `Insert`, or `InsertWithRoutingID` if `keyByAddr` is not set. -/
  | insert (conn : γ) (ep : Endpoint ρ) (proxy keyByAddr : Bool)
  /-- A call of `internalFind`. -/
  | find (t : ℕ) (keys : List (Key ρ)) (wait : Bool) (view : Views γ)
  /-- A waiting call goes on after a broadcast. -/
  | wake (t : ℕ) (view : Views γ)
  /-- The context of a waiting call is done. -/
  | giveUp (t : ℕ)
  | killConnections (entries : List (ConnEntry ρ γ)) (num : ℤ) (first second : View γ) (now : ℕ)
  | close

namespace ConnCache

/-- `none` if the action is not possible. -/
def step (c : ConnCache ρ γ ε) : Action ρ γ ε → Option (ConnCache ρ γ ε)
  | .reserve remote => some (c.reserve remote).1
  | .unreserve r conn proxyConn err now =>
    (c.outstanding.lookup r).map fun res ↦ (c.unreserve r res conn proxyConn err now).1
  | .insert conn ep proxy keyByAddr =>
    some (if c.closed then c else (c.insertConnLocked ep conn ep proxy keyByAddr none).1)
  | .find t keys wait view =>
    if (c.waiters.lookup t).isSome then none else some (c.internalFind t keys wait view)
  | .wake t view =>
    match c.waiters.lookup t with
    | some ⟨keys, true⟩ => some (c.internalFind t keys true view)
    | _ => none
  | .giveUp t => (c.waiters.lookup t).map fun _ ↦ { c with waiters := c.waiters.erase t }
  | .killConnections entries num first second now =>
    if entries.Perm (c.conns.entries.map fun e ↦ e.2) then
      some (c.killConnections entries num first second now)
    else none
  | .close => some c.close

end ConnCache

end Vanadium.Manager
