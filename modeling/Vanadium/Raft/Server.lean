import Vanadium.Foundations.Bits
import Vanadium.Foundations.Table

/-!
# One raft server

The state of one member of a raft group and what each RPC handler and each event of its loop does to
it. `Persist` is the part that `fsPersist` keeps in memory over the log file: the term, the vote and
the tail of the log. `Server` adds the volatile state of the algorithm.

Members are elements of an arbitrary type; the empty id of the source is `none`. Terms and indices
count from 0, and index 0 is the place before the first entry.
-/

namespace Vanadium.Raft

open Foundations

/-- A Go `[]byte`. -/
abbrev Bytes : Type := List (Fin 256)

abbrev Term : Type := ℕ
abbrev Index : Type := ℕ

/-- `RoleCandidate`, `RoleFollower`, `RoleLeader`, `RoleStopped`. -/
inductive Role where
  | candidate
  | follower
  | leader
  | stopped
  deriving DecidableEq

/-- `ClientEntry`, `RaftEntry`. -/
inductive EntryType where
  | client
  | raft
  deriving DecidableEq

structure LogEntry where
  term : Term
  index : Index
  cmd : Bytes
  type : EntryType
  deriving DecidableEq

/-- Why a call fails. The first four are the registered errors with their arguments; `other` is an
error of the file system, of the network or of the client. -/
inductive RaftErr where
  | badTerm (new current : Term)
  | outOfSequence (term : Term) (index : Index)
  | notLeader
  | noSnapshot
  | other
  deriving DecidableEq

/-! ## The persistent state -/

/-- The state of `fsPersist`. `lastSnap` is the term and index of the last snapshot file that was
completed or restored from. -/
structure Persist (ι : Type) where
  currentTerm : Term
  votedFor : Option ι
  baseIndex : Index
  baseTerm : Term
  lastIndex : Index
  lastTerm : Term
  logTail : Table Index LogEntry
  firstLogTailIndex : Index
  lastSnap : Option (Term × Index)

namespace Persist

variable {ι : Type}

/-- The state over an empty directory. -/
def fresh : Persist ι where
  currentTerm := 0
  votedFor := none
  baseIndex := 0
  baseTerm := 0
  lastIndex := 0
  lastTerm := 0
  logTail := ∅
  firstLogTailIndex := 0
  lastSnap := none

def setCurrentTerm (p : Persist ι) (ct : Term) : Persist ι := { p with currentTerm := ct }

def incCurrentTerm (p : Persist ι) : Persist ι := { p with currentTerm := p.currentTerm + 1 }

def setVotedFor (p : Persist ι) (vf : Option ι) : Persist ι := { p with votedFor := vf }

def setCurrentTermAndVotedFor (p : Persist ι) (ct : Term) (vf : Option ι) : Persist ι :=
  { p with currentTerm := ct, votedFor := vf }

def lookup (p : Persist ι) (i : Index) : Option LogEntry := AList.lookup i p.logTail

/-- `LookupPrevious`: the term and index of the entry before `i`, if this server knows them. -/
def lookupPrevious (p : Persist ι) (i : Index) : Option (Term × Index) :=
  if i - 1 = p.baseIndex then some (p.baseTerm, i - 1)
  else (p.lookup (i - 1)).map fun le ↦ (le.term, i - 1)

/-- Delete the log entries with the given indices. -/
def deleteEntries (t : Table Index LogEntry) (is : List Index) : Table Index LogEntry :=
  is.foldl (fun t i ↦ AList.erase i t) t

/-- `addToLogTail`. An entry of another term at the same index is replaced and everything after it
is dropped. -/
def addToLogTail (p : Persist ι) (e : LogEntry) : Persist ι :=
  match p.lookup e.index with
  | none =>
    { p with
      logTail := AList.insert e.index e p.logTail
      lastIndex := e.index
      lastTerm := e.term }
  | some old =>
    if old.term = e.term then p
    else
      { p with
        logTail := AList.insert e.index e
          (deleteEntries p.logTail (List.range' (e.index + 1) (p.lastIndex - e.index)))
        lastIndex := e.index
        lastTerm := e.term }

/-- The loop of `AppendToLog`; `i` is the index that the next entry is compared with. -/
def appendEntries (p : Persist ι) : Index → List LogEntry → Persist ι
  | _, [] => p
  | i, e :: es =>
    if (p.lookup i).map LogEntry.term = some e.term then appendEntries p (i + 1) es
    else appendEntries (p.addToLogTail e) (i + 1) es

/-- Whether the entry before the new ones is the one the sender means. -/
def knowsPrevious (p : Persist ι) (prevTerm : Term) (prevIndex : Index) : Bool :=
  (prevIndex = p.baseIndex ∧ prevTerm = p.baseTerm) ∨
    (p.lookup prevIndex).map LogEntry.term = some prevTerm

/-- `fsPersist.AppendToLog`. -/
def appendToLog (p : Persist ι) (prevTerm : Term) (prevIndex : Index) (entries : List LogEntry) :
    Except RaftErr (Persist ι) :=
  if p.knowsPrevious prevTerm prevIndex then .ok (p.appendEntries (prevIndex + 1) entries)
  else .error (.outOfSequence prevTerm prevIndex)

/-- The entries that `trimLog` drops from memory: the older half of those that the snapshot at
`prevIndex` covers. -/
def trimLogTail (p : Persist ι) (prevIndex : Index) : Persist ι :=
  if p.firstLogTailIndex ≤ prevIndex then
    { p with
      logTail := deleteEntries p.logTail
        (List.range' p.firstLogTailIndex ((prevIndex - p.firstLogTailIndex) / 2 + 1))
      firstLogTailIndex := p.firstLogTailIndex + (prevIndex - p.firstLogTailIndex) / 2 + 1 }
  else p

/-- `takeSnapshot` from the point where the client has written its snapshot: trim the log, then
remember the snapshot. -/
def finishSnapshot (p : Persist ι) (t : Term) (i : Index) : Except RaftErr (Persist ι) :=
  if i = 0 then .ok { p with lastSnap := some (t, i) }
  else
    match p.lookup i with
    | none => .error (.outOfSequence 0 i)
    | some _ => .ok { p.trimLogTail i with lastSnap := some (t, i) }

/-- The end of `SnapshotFromLeader`. -/
def restoredAt (p : Persist ι) (t : Term) (i : Index) : Persist ι :=
  { p with baseTerm := t, baseIndex := i, lastTerm := t, lastIndex := i }

/-- Where the log begins after a restart: at the last snapshot. -/
def restartBase (p : Persist ι) : Term × Index :=
  match p.lastSnap with
  | none => (p.baseTerm, p.baseIndex)
  | some (t, i) => if p.baseIndex ≤ i then (t, i) else (p.baseTerm, p.baseIndex)

/-- What a restart that loses nothing leaves. -/
def reopened (p : Persist ι) : Persist ι :=
  { p with
    baseTerm := p.restartBase.1
    baseIndex := p.restartBase.2
    logTail := deleteEntries p.logTail (List.range (p.restartBase.2 + 1))
    firstLogTailIndex := 0 }

end Persist

/-! ## The server -/

/-- The state of `raft`. `newCommit` holds the commit indices that were received and not looked at
yet, `applyTo` the target of a running `applyCommits` and `fetched` the index and entry it has
handed to the client and not recorded yet; `snapping` is the place of a snapshot that is being
written. `applies` is the history of all entries that `applyCommits` took from the log. -/
structure Server (ι : Type) where
  role : Role
  leader : Option ι
  commitIndex : Index
  appliedTerm : Term
  appliedIndex : Index
  nextIndex : ι → Index
  matchIndex : ι → Index
  newCommit : List Index
  applyTo : Option Index
  fetched : Option (Index × LogEntry)
  snapping : Option (Term × Index)
  applies : List LogEntry
  p : Persist ι

namespace Server

variable {ι : Type} [DecidableEq ι]

/-- A server that has just been started over the given persistent state. -/
def start (me : ι) (p : Persist ι) : Server ι where
  role := .follower
  leader := none
  commitIndex := 0
  appliedTerm := p.baseTerm
  appliedIndex := p.baseIndex
  nextIndex := fun _ ↦ 0
  matchIndex := fun m ↦ if m = me then p.lastIndex else 0
  newCommit := []
  applyTo := none
  fetched := none
  snapping := none
  applies := []
  p := p

/-- Stop and start again without losing persistent state. -/
def restart (me : ι) (s : Server ι) : Server ι :=
  { start me s.p.reopened with applies := s.applies }

/-! ### Elections -/

/-- A `RequestVote` call. -/
structure VoteRequest (ι : Type) where
  term : Term
  candidate : ι
  lastLogTerm : Term
  lastLogIndex : Index
  deriving DecidableEq

/-- The first half of `startElection`, up to the point where the lock is released. -/
def startElection (me : ι) (s : Server ι) : Server ι :=
  { s with
    role := .candidate
    leader := none
    p := s.p.incCurrentTerm.setVotedFor (some me) }

/-- The request that `startElection` sends to every other member. -/
def voteRequest (me : ι) (s : Server ι) : VoteRequest ι where
  term := s.p.currentTerm
  candidate := me
  lastLogTerm := s.p.lastTerm
  lastLogIndex := s.p.lastIndex

/-- A request for a later term makes the server a follower of that term. -/
def observeTerm (term : Term) (s : Server ι) : Server ι :=
  if s.p.currentTerm < term then
    { s with role := .follower, p := s.p.setCurrentTermAndVotedFor term none }
  else s

/-- Whether the log of this server is ahead of the candidate's. -/
def logAhead (s : Server ι) (req : VoteRequest ι) : Bool :=
  req.lastLogTerm < s.p.lastTerm ∨
    (s.p.lastTerm = req.lastLogTerm ∧ req.lastLogIndex < s.p.lastIndex)

/-- `RequestVote`: the new state, the term and whether the vote is given. -/
def requestVote (req : VoteRequest ι) (s : Server ι) : Server ι × Term × Bool :=
  if req.term < s.p.currentTerm then (s, s.p.currentTerm, false)
  else
    let s' := s.observeTerm req.term
    if s'.p.votedFor ≠ none ∧ s'.p.votedFor ≠ some req.candidate then (s', s'.p.currentTerm, false)
    else if s'.logAhead req then (s', s'.p.currentTerm, false)
    else
      ({ s' with
          role := .follower
          p := s'.p.setCurrentTermAndVotedFor req.term (some req.candidate) }, req.term, true)

/-- `setRoleAndWatchdogTimer(RoleLeader)`. -/
def becomeLeader (me : ι) (s : Server ι) : Server ι :=
  { s with
    role := .leader
    leader := some me
    nextIndex := fun m ↦ if m = me then s.nextIndex m else s.p.lastIndex + 1
    matchIndex := fun m ↦ if m = me then s.p.lastIndex else 0 }

/-- Log an entry of its own and count it as matched. -/
def appendOwn (me : ι) (cmd : Bytes) (type : EntryType) (s : Server ι) :
    Except RaftErr (Server ι) :=
  let le : LogEntry := ⟨s.p.currentTerm, s.p.lastIndex + 1, cmd, type⟩
  match s.p.appendToLog s.p.lastTerm s.p.lastIndex [le] with
  | .error e => .error e
  | .ok p => .ok { s with p := p, matchIndex := Function.update s.matchIndex me le.index }

def appendNull (me : ι) (s : Server ι) : Server ι :=
  match s.appendOwn me [] .raft with
  | .error _ => s
  | .ok s' => s'

/-- The second half of `startElection`: `oks` votes were counted among `others` other members, and
`highest` is the highest term they answered. -/
def finishElection (me : ι) (others oks : ℕ) (highest : Term) (s : Server ι) : Server ι :=
  if oks ≤ others / 2 ∨ s.role ≠ .candidate then
    if s.p.currentTerm < highest then
      { s with role := .follower, p := s.p.setCurrentTerm highest }
    else s
  else (s.becomeLeader me).appendNull me

/-! ### The log -/

/-- An `AppendToLog` call of `leader` to `dest`. -/
structure AppendMsg (ι : Type) where
  dest : ι
  term : Term
  leader : ι
  prevIndex : Index
  prevTerm : Term
  leaderCommit : Index
  entries : List LogEntry
  deriving DecidableEq

/-- The common part of `AppendToLog` and `InstallSnapshot`: accept the sender as leader. -/
def acceptLeader (term : Term) (leader : ι) (s : Server ι) : Server ι :=
  { s with
    role := .follower
    leader := some leader
    p := if s.p.currentTerm < term then s.p.setCurrentTermAndVotedFor term none else s.p }

/-- `service.AppendToLog`. -/
def handleAppend (m : AppendMsg ι) (s : Server ι) : Server ι × Except RaftErr Unit :=
  if m.term < s.p.currentTerm then (s, .error (.badTerm m.term s.p.currentTerm))
  else
    let s' := s.acceptLeader m.term m.leader
    match s'.p.appendToLog m.prevTerm m.prevIndex m.entries with
    | .error e => (s', .error e)
    | .ok p => ({ s' with p := p, newCommit := s'.newCommit ++ [m.leaderCommit] }, .ok ())

/-- `service.Append`. -/
def clientAppend (me : ι) (cmd : Bytes) (s : Server ι) : Except RaftErr (Server ι) :=
  if s.role ≠ .leader then .error .notLeader else s.appendOwn me cmd .client

/-- The entries from `i` on, at most `n` of them. -/
def entriesFrom (p : Persist ι) : ℕ → Index → List LogEntry
  | 0, _ => []
  | n + 1, i =>
    match p.lookup i with
    | none => []
    | some le => le :: entriesFrom p n (i + 1)

def makeAppendMsg (me m : ι) (s : Server ι) : Option (AppendMsg ι) :=
  match s.p.lookupPrevious (s.nextIndex m) with
  | none => none
  | some (prevTerm, prevIndex) =>
    some
      { dest := m
        term := s.p.currentTerm
        leader := me
        prevIndex := prevIndex
        prevTerm := prevTerm
        leaderCommit := s.commitIndex
        entries := entriesFrom s.p 10 (s.nextIndex m) }

/-- What `updateFollower` does when its call to `m` with `n` entries has returned. An answer of
`none` is a call that failed without one. -/
def appendReturned (m : ι) (n : ℕ) (answer : Option (Except RaftErr Unit)) (s : Server ι) :
    Server ι :=
  if s.role ≠ .leader then s
  else
    match answer with
    | some (.ok _) =>
      let next := s.nextIndex m + n
      { s with
        nextIndex := Function.update s.nextIndex m next
        matchIndex := if n = 0 then s.matchIndex else Function.update s.matchIndex m (next - 1) }
    | some (.error (.outOfSequence _ _)) =>
      if s.nextIndex m ≤ 1 then s
      else if s.p.lookup (s.nextIndex m - 1) = none then s
      else { s with nextIndex := Function.update s.nextIndex m (s.nextIndex m - 1) }
    | _ => s

/-! ### Snapshots -/

/-- An `InstallSnapshot` call, without the bytes of the snapshot. -/
structure SnapshotMsg (ι : Type) where
  dest : ι
  term : Term
  leader : ι
  appliedTerm : Term
  appliedIndex : Index
  deriving DecidableEq

/-- `service.InstallSnapshot`, where `saved` says whether the bytes were stored and the client was
restored from them. -/
def installSnapshot (m : SnapshotMsg ι) (saved : Except RaftErr Unit) (s : Server ι) :
    Server ι × Except RaftErr Unit :=
  if m.term < s.p.currentTerm then (s, .error (.badTerm m.term s.p.currentTerm))
  else
    let s' := s.acceptLeader m.term m.leader
    match saved with
    | .error e => (s', .error e)
    | .ok _ =>
      ({ s' with
          appliedTerm := m.appliedTerm
          appliedIndex := m.appliedIndex
          p := s'.p.restoredAt m.appliedTerm m.appliedIndex }, .ok ())

/-! ### Commits -/

/-- `r.quorum`, as `AddMember` computes it. -/
def quorum (ι : Type) [Fintype ι] : ℕ := (Fintype.card ι + 1) / 2

/-- The match indices of all members in falling order. -/
def sortedMatches [Fintype ι] (s : Server ι) : List Index :=
  (Finset.univ.val.map s.matchIndex).sort (· ≥ ·)

/-- `r.memberSet[r.quorum-1].matchIndex`, after the members were sorted. -/
def quorumMatch [Fintype ι] (s : Server ι) : Index := s.sortedMatches.getD (quorum ι - 1) 0

/-- The `newMatch` event. -/
def commitMatched [Fintype ι] (s : Server ι) : Server ι :=
  if s.role ≠ .leader ∨ s.quorumMatch ≤ s.commitIndex then s
  else { s with commitIndex := s.quorumMatch, applyTo := some s.quorumMatch }

/-- The `newCommit` event for one received commit index. -/
def commitReceived (i : Index) (s : Server ι) : Server ι :=
  if s.role ≠ .follower then s
  else { s with commitIndex := max s.commitIndex i, applyTo := some (max s.commitIndex i) }

/-- One round of the loop of `applyCommits` up to the point where the entry is applied. -/
def applyFetch (s : Server ι) : Server ι :=
  match s.applyTo with
  | none => s
  | some ci =>
    if s.appliedIndex < ci then
      match s.p.lookup (s.appliedIndex + 1) with
      | none => { s with applyTo := none }
      | some le =>
        { s with fetched := some (s.appliedIndex + 1, le), applies := s.applies ++ [le] }
    else { s with applyTo := none }

/-- The rest of the round: the entry is recorded as applied. -/
def applyRecord (s : Server ι) : Server ι :=
  match s.fetched with
  | none => s
  | some (next, le) => { s with fetched := none, appliedIndex := next, appliedTerm := le.term }

end Server

end Vanadium.Raft
