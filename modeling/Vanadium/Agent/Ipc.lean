import Vanadium.Foundations.Table

/-!
# Calls between the agent and its clients

An `IPC` has connections, and each connection carries calls in both directions. The state of a
connection has what its goroutines have still to do: the goroutine of `negotiateVersion`, which
holds `c.mu` from the start, the read loop, calls that have not been written, requests that have not
been answered, and calls of `Close` and `closeConn`.

A section under a lock is one step. The steps of others while it runs can only close the connection,
as if that came before the section or after it: a write to a closed connection fails. A channel for
a result has room for one, and a nil channel for none.
-/

namespace Vanadium.Agent

open Foundations

def currentVersion : ℤ := 1

inductive Err where
  | write
  | decode
  | eof
  | invalidResults
  /-- an error of the other process -/
  | remote (msg : String)
deriving DecidableEq

/-- A call whose response is awaited. -/
structure RpcInfo where
  call : ℕ
  numResults : ℕ

/-- A call that is to be written. -/
structure Starting where
  call : ℕ
  numArgs : ℕ
  numResults : ℕ

inductive Message where
  | request (id : ℕ)
  | response (id numArgs : ℕ) (err : Option String)
  /-- a value of another type -/
  | unsupported

/-- Where the read loop is. -/
inductive ReadLoop where
  | negotiating
  | reading
  /-- in `handleResp`, before it takes `c.mu` -/
  | responding (id numArgs : ℕ) (err : Option String)
  /-- in `handleResp`, before the results of a call are decoded or skipped -/
  | delivering (call : ℕ) (expected : Bool) (err : Option String)
  /-- sending to a nil channel -/
  | stuck
  | returned
deriving DecidableEq

/-- Where a call of `closeConn` or `Close` is; the latter makes the calls fail. -/
inductive Closing where
  | unlist (fails : Bool)
  | closeConn (fails : Bool)
  | failCalls
deriving DecidableEq

structure IpcConn where
  /-- the network connection has not been closed -/
  opened : Bool
  /-- `c.mu` is held until the version is sent -/
  locked : Bool
  /-- the version that was received does not fit -/
  mismatch : Bool
  nextId : ℕ
  rpcs : Option (Table ℕ RpcInfo)
  /-- messages received and not yet decoded -/
  inbox : List Message
  readLoop : ReadLoop
  starting : List Starting
  /-- requests whose responses are to be written -/
  handling : List ℕ
  closing : List Closing
  /-- the number of calls made so far -/
  calls : ℕ
  /-- what was sent to the channels of calls -/
  results : List (ℕ × Option Err)
  panicked : Bool

/-- What becomes of the values that a call writes. -/
inductive Write where
  | done
  | headerFails
  | argFails
deriving DecidableEq

inductive ConnAction where
  | call (numArgs numResults : ℕ)
  | close
  | receive (m : Message)
  | sendVersion (ok : Bool)
  | startCall (i : ℕ) (write : Write)
  | handleReq (i : ℕ) (ok : Bool)
  | advance (i : ℕ)
  | readVersion (minVersion maxVersion : ℤ)
  | readMessage
  | readFails
  | lookupResp
  | deliver (ok : Bool)

namespace IpcConn

/-- `newConnLocked` -/
def new : IpcConn where
  opened := true
  locked := true
  mismatch := false
  nextId := 0
  rpcs := some ∅
  inbox := []
  readLoop := .negotiating
  starting := []
  handling := []
  closing := []
  calls := 0
  results := []
  panicked := false

/-- A goroutine calls `closeConn` or `Close`. -/
def beginClose (fails : Bool) (c : IpcConn) : IpcConn :=
  { c with closing := c.closing ++ [.unlist fails] }

def send (call : ℕ) (err : Option Err) (c : IpcConn) : IpcConn :=
  { c with results := c.results ++ [(call, err)] }

/-- `startCall` -/
def startCall (r : Starting) (write : Write) (c : IpcConn) : IpcConn :=
  let id := c.nextId
  let c := { c with nextId := (c.nextId + 1) % 2 ^ 64 }
  match write with
  | .headerFails => c.send r.call (some .write)
  | .argFails => (c.send r.call (some .write)).beginClose true
  | .done =>
    match c.rpcs with
    | none => { c with panicked := true }
    | some rpcs => { c with rpcs := some (AList.insert id ⟨r.call, r.numResults⟩ rpcs) }

/-- The last part of `Close`, under `c.mu`. -/
def failCalls (c : IpcConn) : IpcConn :=
  match c.rpcs with
  | none => c
  | some rpcs =>
    { c with
      results := c.results ++ rpcs.entries.map fun e ↦ (e.2.call, some .eof)
      rpcs := none }

/-- The first part of `handleResp`, under `c.mu`. -/
def lookupResp (id numArgs : ℕ) (err : Option String) (c : IpcConn) : IpcConn :=
  match c.rpcs.bind (AList.lookup id) with
  | none => { c with readLoop := .stuck }
  | some info =>
    { c with
      rpcs := c.rpcs.map (AList.erase id)
      readLoop := .delivering info.call (numArgs == info.numResults) err }

/-- The second part of `handleResp`. -/
def deliver (call : ℕ) (expected : Bool) (err : Option String) (ok : Bool)
    (c : IpcConn) : IpcConn :=
  if expected then
    if ok then { c.send call (err.map .remote) with readLoop := .reading }
    else { (c.send call (some .decode)).beginClose true with readLoop := .returned }
  else { c.send call (some ((err.map Err.remote).getD .invalidResults)) with readLoop := .reading }

/-- `readMessage` up to `handleResp`, and what `readLoop` does with the result. -/
def readMessage (m : Message) (c : IpcConn) : IpcConn :=
  match m with
  | .request id => { c with handling := c.handling ++ [id] }
  | .response id numArgs err => { c with readLoop := .responding id numArgs err }
  | .unsupported => { c.beginClose true with readLoop := .returned }

/-- The end of `negotiateVersion` in the read loop. An error of the decoder leaves the versions as
they are, and is not looked at. -/
def readVersion (minVersion maxVersion : ℤ) (c : IpcConn) : IpcConn :=
  if minVersion ≤ currentVersion ∧ currentVersion ≤ maxVersion then { c with readLoop := .reading }
  else { c.beginClose false with readLoop := .returned, mismatch := true }

/-- A call of `closeConn` or `Close` goes on. -/
def advance (i : ℕ) (c : IpcConn) : Option IpcConn :=
  match c.closing[i]? with
  | none => none
  | some (.unlist fails) => some { c with closing := c.closing.set i (.closeConn fails) }
  | some (.closeConn fails) =>
    let closing := if fails then c.closing.set i .failCalls else c.closing.eraseIdx i
    some { c with closing := closing, opened := false }
  | some .failCalls =>
    if c.locked then none else some { c.failCalls with closing := c.closing.eraseIdx i }

def step (c : IpcConn) : ConnAction → Option IpcConn
  | .call numArgs numResults =>
    some { c with
      calls := c.calls + 1
      starting := c.starting ++ [⟨c.calls, numArgs, numResults⟩] }
  | .close => some (c.beginClose true)
  | .receive m => if c.opened then some { c with inbox := c.inbox ++ [m] } else none
  | .sendVersion ok =>
    if c.locked = false ∨ (ok = true ∧ c.opened = false) then none
    else some (if ok then { c with locked := false } else
      { c with locked := false }.beginClose false)
  | .startCall i write =>
    match c.starting[i]? with
    | none => none
    | some r =>
      if c.locked then none
      else if c.opened = false ∧ write ≠ .headerFails then none
      else if r.numArgs = 0 ∧ write = .argFails then none
      else some ({ c with starting := c.starting.eraseIdx i }.startCall r write)
  | .handleReq i ok =>
    if c.handling.length ≤ i ∨ c.locked = true ∨ (ok = true ∧ c.opened = false) then none
    else
      let c := { c with handling := c.handling.eraseIdx i }
      some (if ok then c else c.beginClose true)
  | .advance i => c.advance i
  | .readVersion minVersion maxVersion =>
    if c.readLoop = .negotiating then some (c.readVersion minVersion maxVersion) else none
  | .readMessage =>
    match c.readLoop, c.inbox with
    | .reading, m :: inbox => some ({ c with inbox := inbox }.readMessage m)
    | _, _ => none
  | .readFails =>
    if c.readLoop = .reading then some { c.beginClose true with readLoop := .returned } else none
  | .lookupResp =>
    match c.readLoop with
    | .responding id numArgs err => if c.locked then none else some (c.lookupResp id numArgs err)
    | _ => none
  | .deliver ok =>
    match c.readLoop with
    | .delivering call expected err => some (c.deliver call expected err ok)
    | _ => none

end IpcConn

/-! ## All connections -/

/-- Where a listen loop is. -/
inductive ListenLoop where
  | starting
  | accepting
  /-- a connection was accepted, and `ipc.mu` is to be taken -/
  | accepted
  | returned
deriving DecidableEq

structure Ipc where
  /-- a goroutine has returned without unlocking `ipc.mu` -/
  muLost : Bool
  listening : Bool
  /-- all connections there ever were -/
  all : List IpcConn
  /-- the positions of the connections in `ipc.conns` -/
  conns : List ℕ
  loops : List ListenLoop

def Ipc.new : Ipc := ⟨false, false, [], [], []⟩

inductive Action where
  | conn (i : ℕ) (a : ConnAction)
  | listen (ok : Bool)
  | connect
  | close
  /-- a listen loop reads the listener -/
  | startLoop (j : ℕ)
  | accept (j : ℕ) (ok : Bool)
  /-- a listen loop takes `ipc.mu` with a connection that it has accepted -/
  | adopt (j : ℕ)

namespace Ipc

/-- The connection is added to `ipc.conns`, and its goroutines start. -/
def newConn (s : Ipc) : Ipc :=
  { s with all := s.all ++ [IpcConn.new], conns := s.conns ++ [s.all.length] }

/-- The step of a connection takes `ipc.mu`. -/
def unlists (c : IpcConn) : ConnAction → Bool
  | .advance i =>
    match c.closing[i]? with
    | some (.unlist _) => true
    | _ => false
  | _ => false

def stepConn (s : Ipc) (i : ℕ) (a : ConnAction) : Option Ipc :=
  match s.all[i]? with
  | none => none
  | some c =>
    if unlists c a then
      if s.muLost then none
      else (c.step a).map fun c' ↦ { s with all := s.all.set i c', conns := s.conns.erase i }
    else (c.step a).map fun c' ↦ { s with all := s.all.set i c' }

/-- The connections at some positions are closed. -/
def closeAll (all : List IpcConn) (conns : List ℕ) : List IpcConn :=
  all.mapIdx fun i c ↦ if i ∈ conns then { c with opened := false } else c

def step (s : Ipc) : Action → Option Ipc
  | .conn i a => s.stepConn i a
  | .listen ok =>
    if s.muLost then none
    else some { s with
      listening := ok
      loops := if ok then s.loops ++ [.starting] else s.loops }
  | .connect => if s.muLost then none else some s.newConn
  | .close =>
    if s.muLost then none
    else some { s with listening := false, all := closeAll s.all s.conns, conns := [] }
  | .startLoop j =>
    if s.muLost ∨ s.loops[j]? ≠ some .starting then none
    else some { s with loops := s.loops.set j (if s.listening then .accepting else .returned) }
  | .accept j ok =>
    if s.loops[j]? ≠ some .accepting then none
    else some { s with loops := s.loops.set j (if ok then .accepted else .returned) }
  | .adopt j =>
    if s.muLost ∨ s.loops[j]? ≠ some .accepted then none
    else if s.listening then some { s.newConn with loops := s.loops.set j .accepting }
    else some { s with muLost := true, loops := s.loops.set j .returned }

end Ipc

end Vanadium.Agent
