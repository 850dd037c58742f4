import Vanadium.Foundations.Transition
import Vanadium.Raft.Server

/-!
# A raft group

A fixed set of servers and the calls between them. Calls are kept after they were sent, so that each
of them may be delivered late, several times or never, and their answers likewise. A step is what
one server does without releasing its lock: an election is a step that sends the requests and a
later step that counts the answers which have arrived, and the update of a follower is a step that
sends, a step that delivers and a step that handles the answer.
-/

namespace Vanadium.Raft

open Foundations
open Server (VoteRequest AppendMsg SnapshotMsg)

variable {ι : Type} [DecidableEq ι] [Fintype ι]

/-! ## States -/

/-- The answer of `voter` to the vote request with the number `call`. -/
structure VoteReply (ι : Type) where
  call : ℕ
  voter : ι
  term : Term
  granted : Bool
  deriving DecidableEq

/-- Where `updateFollower` waits: for an `AppendToLog` call, before opening the snapshot, or for an
`InstallSnapshot` call. -/
inductive Call where
  | append (k : ℕ)
  | openSnapshot
  | snapshot (k : ℕ)
  deriving DecidableEq

/-- The servers, the calls sent so far with the answers given to them, and which of them the servers
still wait for: `collecting i` are the vote requests whose answers server `i` still counts, and
`calling i m` is the call to `m` on which server `i` waits. -/
structure Cluster (ι : Type) where
  server : ι → Server ι
  requests : List (VoteRequest ι)
  replies : List (VoteReply ι)
  collecting : ι → List ℕ
  appends : List (AppendMsg ι)
  answers : List (ℕ × Except RaftErr Unit)
  snapshots : List (SnapshotMsg ι)
  snapshotAnswers : List (ℕ × Except RaftErr Unit)
  calling : ι → ι → Option Call

namespace Cluster

/-- All servers started over empty directories. -/
def initial : Cluster ι where
  server := fun i ↦ Server.start i Persist.fresh
  requests := []
  replies := []
  collecting := fun _ ↦ []
  appends := []
  answers := []
  snapshots := []
  snapshotAnswers := []
  calling := fun _ _ ↦ none

/-- Replace the state of one server. -/
def set (c : Cluster ι) (i : ι) (s : Server ι) : Cluster ι :=
  { c with server := Function.update c.server i s }

/-- Record the call of `i` to `m` that `i` waits for. -/
def setCalling (c : Cluster ι) (i m : ι) (call : Option Call) : Cluster ι :=
  { c with calling := Function.update c.calling i (Function.update (c.calling i) m call) }

/-! ## Steps -/

/-- What can happen next. In `finishElection`, `got` are the answers that have arrived when the
votes are counted; in `appendReturn` and `snapshotReturn` an answer of `none` is a call that failed
on the way. -/
inductive Action (ι : Type) where
  | startElection (i : ι)
  | deliverVote (k : ℕ) (v : ι)
  | finishElection (i : ι) (k : ℕ) (got : ι → Option (Term × Bool))
  | clientAppend (i : ι) (cmd : Bytes)
  | callFollower (i m : ι)
  | deliverAppend (k : ℕ)
  | appendReturn (i m : ι) (answer : Option (Except RaftErr Unit))
  | sendSnapshot (i m : ι)
  | deliverSnapshot (k : ℕ) (saved : Except RaftErr Unit)
  | snapshotReturn (i m : ι) (answer : Option (Except RaftErr Unit))
  | commitMatched (i : ι)
  | commitReceived (i : ι) (k : ℕ)
  | applyFetch (i : ι)
  | applyRecord (i : ι)
  | beginSnapshot (i : ι)
  | finishSnapshot (i : ι) (saved : Bool)
  | restart (i : ι)

/-- The votes in the answers `got`, the candidate's own included. -/
def oks (got : ι → Option (Term × Bool)) : ℕ :=
  1 + (Finset.univ.filter fun m ↦ (got m).map Prod.snd = some true).card

/-- The highest term in the answers `got`. -/
def highest (got : ι → Option (Term × Bool)) : Term :=
  Finset.univ.sup fun m ↦ ((got m).map Prod.fst).getD 0

/-- The answers `got` were given to the request with the number `k`. -/
def Answered (c : Cluster ι) (k : ℕ) (got : ι → Option (Term × Bool)) : Prop :=
  ∀ m, ∀ r ∈ got m, (⟨k, m, r.1, r.2⟩ : VoteReply ι) ∈ c.replies

instance (c : Cluster ι) (k : ℕ) (got : ι → Option (Term × Bool)) : Decidable (c.Answered k got) :=
  inferInstanceAs (Decidable (∀ m, ∀ r ∈ got m, (⟨k, m, r.1, r.2⟩ : VoteReply ι) ∈ c.replies))

/-- `startElection` up to the point where the lock is released: the same request goes to all other
members. -/
def startElection (c : Cluster ι) (i : ι) : Cluster ι :=
  let s := (c.server i).startElection i
  { c.set i s with
    requests := c.requests ++ [s.voteRequest i]
    collecting := Function.update c.collecting i (c.collecting i ++ [c.requests.length]) }

/-- A vote request reaches the member `v`. -/
def deliverVote (c : Cluster ι) (k : ℕ) (v : ι) : Option (Cluster ι) :=
  match c.requests[k]? with
  | none => none
  | some req =>
    if v = req.candidate then none
    else
      let r := (c.server v).requestVote req
      some { c.set v r.1 with replies := c.replies ++ [⟨k, v, r.2.1, r.2.2⟩] }

/-- The votes for the request `k` of server `i` are counted. -/
def finishElection (c : Cluster ι) (i : ι) (k : ℕ) (got : ι → Option (Term × Bool)) :
    Option (Cluster ι) :=
  if k ∈ c.collecting i ∧ c.Answered k got then
    some
      { c.set i ((c.server i).finishElection i (Fintype.card ι - 1) (oks got) (highest got)) with
        collecting := Function.update c.collecting i ((c.collecting i).erase k) }
  else none

/-- One iteration of `updateFollower` up to the point where the lock is released. -/
def callFollower (c : Cluster ι) (i m : ι) : Option (Cluster ι) :=
  if i = m ∨ (c.server i).role ≠ .leader ∨ c.calling i m ≠ none then none
  else
    match (c.server i).makeAppendMsg i m with
    | none => some (c.setCalling i m (some .openSnapshot))
    | some msg =>
      some { c.setCalling i m (some (.append c.appends.length)) with
        appends := c.appends ++ [msg] }

/-- An `AppendToLog` call reaches its destination. -/
def deliverAppend (c : Cluster ι) (k : ℕ) : Option (Cluster ι) :=
  match c.appends[k]? with
  | none => none
  | some msg =>
    let r := (c.server msg.dest).handleAppend msg
    some { c.set msg.dest r.1 with answers := c.answers ++ [(k, r.2)] }

/-- The `AppendToLog` call of `i` to `m` returns. -/
def appendReturn (c : Cluster ι) (i m : ι) (answer : Option (Except RaftErr Unit)) :
    Option (Cluster ι) :=
  match c.calling i m with
  | some (.append k) =>
    match c.appends[k]? with
    | none => none
    | some msg =>
      if ∀ r ∈ answer, (k, r) ∈ c.answers then
        some ((c.set i ((c.server i).appendReturned m msg.entries.length answer)).setCalling
          i m none)
      else none
  | _ => none

/-- `sendLatestSnapshot` up to the call. The term is read after the lock was released. -/
def sendSnapshot (c : Cluster ι) (i m : ι) : Option (Cluster ι) :=
  if c.calling i m = some .openSnapshot then
    match (c.server i).p.lastSnap with
    | none => some (c.setCalling i m none)
    | some (t, idx) =>
      some { c.setCalling i m (some (.snapshot c.snapshots.length)) with
        snapshots := c.snapshots ++ [⟨m, (c.server i).p.currentTerm, i, t, idx⟩] }
  else none

/-- An `InstallSnapshot` call reaches its destination. -/
def deliverSnapshot (c : Cluster ι) (k : ℕ) (saved : Except RaftErr Unit) : Option (Cluster ι) :=
  match c.snapshots[k]? with
  | none => none
  | some msg =>
    let r := (c.server msg.dest).installSnapshot msg saved
    some { c.set msg.dest r.1 with snapshotAnswers := c.snapshotAnswers ++ [(k, r.2)] }

/-- The `InstallSnapshot` call of `i` to `m` returns. -/
def snapshotReturn (c : Cluster ι) (i m : ι) (answer : Option (Except RaftErr Unit)) :
    Option (Cluster ι) :=
  match c.calling i m with
  | some (.snapshot k) =>
    match c.snapshots[k]? with
    | none => none
    | some msg =>
      if ∀ r ∈ answer, (k, r) ∈ c.snapshotAnswers then
        match answer with
        | some (.ok _) =>
          let s := c.server i
          some ((c.set i { s with
            nextIndex := Function.update s.nextIndex m (msg.appliedIndex + 1) }).setCalling
              i m none)
        | _ => some (c.setCalling i m none)
      else none
  | _ => none

/-- An event of the server's own loop, which handles one event after the other. -/
def serverEvent (c : Cluster ι) (i : ι) (s : Server ι) : Option (Cluster ι) :=
  if (c.server i).applyTo = none then some (c.set i s) else none

/-- One step of the group. -/
def step (c : Cluster ι) : Action ι → Option (Cluster ι)
  | .startElection i => some (c.startElection i)
  | .deliverVote k v => c.deliverVote k v
  | .finishElection i k got => c.finishElection i k got
  | .clientAppend i cmd =>
    match (c.server i).clientAppend i cmd with
    | .error _ => none
    | .ok s => some (c.set i s)
  | .callFollower i m => c.callFollower i m
  | .deliverAppend k => c.deliverAppend k
  | .appendReturn i m answer => c.appendReturn i m answer
  | .sendSnapshot i m => c.sendSnapshot i m
  | .deliverSnapshot k saved => c.deliverSnapshot k saved
  | .snapshotReturn i m answer => c.snapshotReturn i m answer
  | .commitMatched i => c.serverEvent i (c.server i).commitMatched
  | .commitReceived i k =>
    match (c.server i).newCommit[k]? with
    | none => none
    | some ci =>
      c.serverEvent i
        (Server.commitReceived ci { c.server i with
          newCommit := (c.server i).newCommit.eraseIdx k })
  | .applyFetch i =>
    if (c.server i).fetched = none then some (c.set i (c.server i).applyFetch) else none
  | .applyRecord i => some (c.set i (c.server i).applyRecord)
  | .beginSnapshot i =>
    let s := c.server i
    if s.snapping = none ∧ s.p.firstLogTailIndex < s.appliedIndex then
      some (c.set i { s with snapping := some (s.appliedTerm, s.appliedIndex) })
    else none
  | .finishSnapshot i saved =>
    let s := c.server i
    match s.snapping with
    | none => none
    | some (t, idx) =>
      if saved then
        match s.p.finishSnapshot t idx with
        | .error _ => some (c.set i { s with snapping := none })
        | .ok p => some (c.set i { s with snapping := none, p := p })
      else some (c.set i { s with snapping := none })
  | .restart i =>
    some
      { c.set i ((c.server i).restart i) with
        collecting := Function.update c.collecting i []
        calling := Function.update c.calling i fun _ ↦ none }

end Cluster

end Vanadium.Raft
