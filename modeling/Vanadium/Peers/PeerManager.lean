import Vanadium.Foundations.Table

/-!
# The peer manager

Every round of `managePeersInternal` picks peers under the lock, pings them without it, and stores
those that answered in `healthyPeerCache`, under the lock again. A ping that succeeds gives a pinned
connection. The syncer gets a copy of an entry from `pickPeer`, and reports how its sync went with
`updatePeerFromSyncer`.

Pins are numbered in the order in which they are obtained. The state records the calls of `Unpin`
and what `pickPeer` has returned. Connections close and reopen without the lock; since `Closed` is
asked once for each entry, a loop over the cache sees them as they are at one moment.
-/

namespace Vanadium.Peers

open Foundations

/-! ## Peers and connections -/

abbrev Pin := ℕ

/-- A `connInfo` before its peer has been pinged. -/
structure Candidate where
  relName : String
  mtTbls : List String
  addrs : List String

/-- A `connInfo` with a pinned connection. -/
structure ConnInfo where
  relName : String
  mtTbls : List String
  addrs : List String
  pinned : Pin
  addedTime : ℕ
deriving DecidableEq

structure PeerSyncInfo where
  numFailuresMountTable : ℕ
  numFailuresNeighborhood : ℕ
  attemptTs : ℕ
  successTs : ℕ

inductive Policy where
  | selectRandom
  | selectMostDiff
  | selectOldest
deriving DecidableEq

structure Config where
  /-- the device's own name -/
  name : String
  policy : Policy
  /-- `naming.Join` -/
  join : List String → String

def pingFanout : ℕ := 10
def pingFailuresCap : ℕ := 6

def roundsToBackoff (failures : ℕ) : ℕ := 2 ^ min failures pingFailuresCap

/-! ## The state -/

/-- A call of `managePeersInternal` between its steps. -/
inductive Round where
  | chosen (peers : List Candidate) (viaMtTbl : Bool)
  | pinged (peers : List ConnInfo) (viaMtTbl : Bool)

structure State where
  numFailuresMountTable : ℕ
  curCount : ℕ
  peerTbl : Table String PeerSyncInfo
  healthyPeerCache : Table String ConnInfo
  rounds : List Round
  /-- what `pickPeer` has returned -/
  picked : List ConnInfo
  /-- the pins whose connections are closed -/
  closed : List Pin
  /-- the number of pins obtained -/
  pins : ℕ
  /-- the calls of `Unpin` -/
  unpinned : List Pin

def State.new : State := ⟨0, 0, ∅, ∅, [], [], [], 0, []⟩

namespace State

def unpin (s : State) (pin : Pin) : State := { s with unpinned := s.unpinned ++ [pin] }

/-! ## Eviction -/

def evictPeer (s : State) (p : String) : State :=
  match AList.lookup p s.healthyPeerCache with
  | none => s
  | some info =>
    if info.pinned ∈ s.closed then
      { s with healthyPeerCache := AList.erase p s.healthyPeerCache }.unpin info.pinned
    else s

def evictClosedPeerConnsLocked (s : State) : State := s.healthyPeerCache.keys.foldl evictPeer s

/-! ## The choice of peers -/

/-- The members of syncgroups with their mount tables, the neighbours with their addresses, each in
the order of a loop over the map, and the random numbers. -/
structure Surroundings where
  members : List (String × List String)
  neighbors : List (String × List String)
  rands : List ℕ

/-- Choose up to `k` of the `n` peers that are not in the cache. -/
def choosePeers (cached : String → Bool) (mk : String → List String → Candidate) :
    ℕ → ℕ → List ℕ → List (String × List String) → List Candidate
  | _, _, _, [] => []
  | k, n, rands, (m, names) :: peers =>
    if cached m then choosePeers cached mk k n rands peers
    else if rands.headD 0 % n < k then
      mk m names ::
        if k - 1 = 0 then [] else choosePeers cached mk (k - 1) (n - 1) rands.tail peers
    else choosePeers cached mk k (n - 1) rands.tail peers

def pickFrom (s : State) (mk : String → List String → Candidate) (rands : List ℕ)
    (peers : List (String × List String)) : List Candidate :=
  let cached m := (AList.lookup m s.healthyPeerCache).isSome
  choosePeers cached mk pingFanout (peers.countP fun p ↦ !cached p.1) rands peers

/-- `pickPeersToPingRandom`: the peers, and whether they are reached via mount tables. -/
def pickPeersToPingRandom (cfg : Config) (around : Surroundings) (s : State) :
    (List Candidate × Bool) × State :=
  let s := s.evictClosedPeerConnsLocked
  let members := around.members.filter fun m ↦ m.1 ≠ cfg.name
  if members = [] then (([], true), s)
  else if s.curCount = 0 then
    ((s.pickFrom (fun m mtTbls ↦ ⟨m, mtTbls, []⟩) around.rands members, true), s)
  else
    let s := { s with curCount := s.curCount - 1 }
    let neighbors := around.neighbors.filter fun nbr ↦ nbr.1 ∈ members.map Prod.fst
    if neighbors = [] then (([], false), s)
    else ((s.pickFrom (fun nbr addrs ↦ ⟨nbr, [], addrs⟩) around.rands neighbors, false), s)

end State

/-! ## Pings -/

/-- What a name that is pinged stands for. -/
structure NameInfo where
  relName : String
  mtTbl : Bool
  /-- the mount table or the address -/
  via : String

def syncbaseSuffix : String := "%%sync"

/-- The names of the peers, with what they stand for. -/
def nameInfos (cfg : Config) (peers : List Candidate) : List (String × NameInfo) :=
  peers.flatMap fun p ↦
    (p.addrs.map fun a ↦ (cfg.join [a, syncbaseSuffix], ⟨p.relName, false, a⟩)) ++
      p.mtTbls.map fun mt ↦ (cfg.join [mt, p.relName, syncbaseSuffix], ⟨p.relName, true, mt⟩)

/-- The peer can be reached in one more way. -/
def NameInfo.addTo (info : NameInfo) (ci : ConnInfo) : ConnInfo :=
  if info.relName ≠ ci.relName then ci
  else if info.mtTbl then { ci with mtTbls := ci.mtTbls ++ [info.via] }
  else { ci with addrs := ci.addrs ++ [info.via] }

namespace State

/-- The result of a ping in the loop of `pingPeers`. A name that was not pinged would be a nil
pointer. -/
def pingResult (nm : List (String × NameInfo)) (speers : List ConnInfo) (s : State) :
    String × Bool → Option (List ConnInfo × State)
  | (_, false) => some (speers, s)
  | (name, true) =>
    match nm.reverse.lookup name with
    | none => none
    | some info =>
      let s' := { s with pins := s.pins + 1 }
      if speers.any fun ci ↦ ci.relName == info.relName then
        some (speers.map info.addTo, s'.unpin s.pins)
      else some (speers ++ [info.addTo ⟨info.relName, [], [], s.pins, 0⟩], s')

def pingResults (nm : List (String × NameInfo)) :
    List (String × Bool) → List ConnInfo → State → Option (List ConnInfo × State)
  | [], speers, s => some (speers, s)
  | r :: res, speers, s =>
    match pingResult nm speers s r with
    | none => none
    | some (speers, s) => pingResults nm res speers s

/-- `pingPeers`, with the results of `PingInParallel` in the order of a loop over the map. -/
def pingPeers (cfg : Config) (peers : List Candidate) (res : List (String × Bool)) (s : State) :
    Option (List ConnInfo × State) :=
  pingResults (nameInfos cfg peers) res [] s

/-! ## The cache of healthy peers -/

/-- Drop the peer cache. -/
def dropPeerCache (s : State) : State :=
  { s with
    unpinned := s.unpinned ++ s.healthyPeerCache.entries.map fun e ↦ e.2.pinned
    healthyPeerCache := ∅ }

def storePeer (now : ℕ) (s : State) (p : ConnInfo) : State :=
  let s :=
    match AList.lookup p.relName s.healthyPeerCache with
    | none => s
    | some old => s.unpin old.pinned
  { s with healthyPeerCache := AList.insert p.relName { p with
    addedTime := now } s.healthyPeerCache }

/-- The second part of `managePeersInternal` under the lock. -/
def storePeers (peers : List ConnInfo) (viaMtTbl : Bool) (now : ℕ) (s : State) : State :=
  if peers = [] then
    if viaMtTbl then
      let s := if s.numFailuresMountTable = 0 then s.dropPeerCache else s
      { s with
        numFailuresMountTable := s.numFailuresMountTable + 1
        curCount := roundsToBackoff (s.numFailuresMountTable + 1) }
    else s
  else
    let s := if viaMtTbl then { s with numFailuresMountTable := 0 } else s
    peers.foldl (storePeer now) s

/-- `pickPeerRandom`: the entry at some place in the order of a loop over the map. -/
def pickPeerRandom (ind : ℕ) (s : State) : Option ConnInfo × State :=
  let s := s.evictClosedPeerConnsLocked
  (s.healthyPeerCache.entries[ind % s.healthyPeerCache.entries.length]?.map fun e ↦ e.2, s)

def recordAttempt (peer : ConnInfo) (attemptTs now : ℕ) (failed : Bool) (info : PeerSyncInfo) :
    PeerSyncInfo :=
  let info := { info with attemptTs := attemptTs }
  if failed then
    if peer.addrs ≠ [] then { info with
      numFailuresNeighborhood := info.numFailuresNeighborhood + 1 }
    else { info with numFailuresMountTable := info.numFailuresMountTable + 1 }
  else if peer.addrs ≠ [] then { info with numFailuresNeighborhood := 0, successTs := now }
  else { info with numFailuresMountTable := 0, successTs := now }

def updatePeerFromSyncer (peer : ConnInfo) (attemptTs now : ℕ) (failed : Bool)
    (s : State) : State :=
  let info := (AList.lookup peer.relName s.peerTbl).getD ⟨0, 0, 0, 0⟩
  let s := { s with
    peerTbl := AList.insert peer.relName (recordAttempt peer attemptTs now failed info) s.peerTbl }
  if failed then
    { s with healthyPeerCache := AList.erase peer.relName s.healthyPeerCache }.unpin peer.pinned
  else s

end State

/-! ## Steps -/

inductive Action where
  /-- `managePeersInternal` begins -/
  | pickPeersToPing (around : State.Surroundings)
  /-- the pings of a round return -/
  | pingPeers (i : ℕ) (res : List (String × Bool))
  | storePeers (i now : ℕ)
  | pickPeer (ind : ℕ)
  | updatePeerFromSyncer (peer : ConnInfo) (attemptTs now : ℕ) (failed : Bool)
  | connCloses (pin : Pin)
  | connReopens (pin : Pin)

def step (cfg : Config) (s : State) : Action → Option State
  | .pickPeersToPing around =>
    if cfg.policy = .selectRandom then
      match s.pickPeersToPingRandom cfg around with
      | (([], _), s) => some s
      | ((peers, viaMtTbl), s) => some { s with rounds := s.rounds ++ [.chosen peers viaMtTbl] }
    else some s
  | .pingPeers i res =>
    match s.rounds[i]? with
    | some (.chosen peers viaMtTbl) =>
      match { s with rounds := s.rounds.eraseIdx i }.pingPeers cfg peers res with
      | none => none
      | some (speers, s) => some { s with rounds := s.rounds ++ [.pinged speers viaMtTbl] }
    | _ => none
  | .storePeers i now =>
    match s.rounds[i]? with
    | some (.pinged peers viaMtTbl) =>
      some ({ s with rounds := s.rounds.eraseIdx i }.storePeers peers viaMtTbl now)
    | _ => none
  | .pickPeer ind =>
    if cfg.policy = .selectRandom then
      match s.pickPeerRandom ind with
      | (none, s) => some s
      | (some peer, s) => some { s with picked := s.picked ++ [peer] }
    else some s
  | .updatePeerFromSyncer peer attemptTs now failed =>
    if peer ∈ s.picked then some (s.updatePeerFromSyncer peer attemptTs now failed) else none
  | .connCloses pin => some { s with closed := pin :: s.closed }
  | .connReopens pin => some { s with closed := s.closed.filter (· ≠ pin) }

end Vanadium.Peers
