import Vanadium.Foundations.OrderedMap
import Vanadium.Foundations.Transition
import Vanadium.Raft.Server

/-!
# The files of a raft server

How `fsPersist` keeps its state in a directory. A log file holds what gob encoders have written to
it: a term and vote each time these are set, and every entry that is added to the log. A snapshot
file stands for the entries up to the place that its name gives. On start-up the latest snapshot is
restored and the log files from the one with its name on are read, in the order of their names.

A log file is the list of the streams written to it, one for each encoder that was started on it. A
decoder reads the first stream and fails at a second one. What clients put into snapshots is left
out: files are reliable, so that a snapshot that was completed can be restored.
-/

namespace Vanadium.Raft

open Foundations

variable {ι : Type}

/-- A file name without its suffix, `<term>.<index>`. `termIndexToFileName` writes both numbers with
the same number of digits, so that names are ordered as pairs. -/
abbrev FileName : Type := ℕ ×ₗ ℕ

def termIndexToFileName (t : Term) (i : Index) : FileName := toLex (t, i)

/-- `parseFileName`. The numbers are read as `int64`; that the second is too large goes unnoticed,
and the largest `int64` is taken. -/
def parseFileName (f : FileName) : Option (Term × Index) :=
  if (ofLex f).1 < 2 ^ 63 then some ((ofLex f).1, min (ofLex f).2 (2 ^ 63 - 1)) else none

/-- An encoded `ControlEntry` or `LogEntry`. -/
inductive Record (ι : Type) where
  | control (currentTerm : Term) (votedFor : Option ι)
  | entry (e : LogEntry)
  deriving DecidableEq

/-! ## The directory -/

/-- The log files, each with its streams, and the names of the snapshot files. -/
structure Dir (ι : Type) where
  logs : Table FileName (List (List (Record ι)))
  snaps : Table FileName Unit

namespace Dir

/-- A new directory. -/
def empty : Dir ι := ⟨∅, ∅⟩

/-- The streams of a log file. -/
def streams (d : Dir ι) (f : FileName) : List (List (Record ι)) := (AList.lookup f d.logs).getD []

/-- `newLog`, with the records that the new encoder writes before anything else happens. The file is
opened for appending if it exists. -/
def newLog (d : Dir ι) (f : FileName) (recs : List (Record ι)) : Dir ι :=
  { d with logs := AList.insert f (d.streams f ++ [recs]) d.logs }

/-- Write a record with the encoder that was started last on a file. -/
def encode (d : Dir ι) (f : FileName) (r : Record ι) : Dir ι :=
  { d with
    logs := AList.insert f ((d.streams f).dropLast ++ [(d.streams f).getLastD [] ++ [r]]) d.logs }

/-- A snapshot file is complete only if there is a log file of the same name. -/
def Complete (d : Dir ι) (f : FileName) : Prop := f ∈ d.logs.keys

instance (d : Dir ι) : DecidablePred d.Complete :=
  fun f ↦ inferInstanceAs (Decidable (f ∈ d.logs.keys))

/-- The latest snapshot that can be restored, with its file. -/
def latestSnap (d : Dir ι) : Option (FileName × Term × Index) :=
  (d.snaps.scan d.Complete).reverse.findSome? fun e ↦ (parseFileName e.1).map (Prod.mk e.1)

/-- The name of the first log file to read. -/
def firstLog (d : Dir ι) : FileName :=
  (d.latestSnap.map Prod.fst).getD (termIndexToFileName 0 0)

end Dir

/-! ## Reading it -/

namespace Persist

/-- What `readLog` does with a record. The type of an entry is not kept. -/
def replay (p : Persist ι) : Record ι → Persist ι
  | .control currentTerm votedFor => p.setCurrentTermAndVotedFor currentTerm votedFor
  | .entry e =>
    if e.index ≠ 0 ∧ (p.lastIndex = 0 ∨ e.index ≤ p.lastIndex + 1) then
      p.addToLogTail { e with type := .client }
    else p

/-- `readLog`, with whether the end of the file was reached. -/
def readLog (p : Persist ι) : List (List (Record ι)) → Persist ι × Bool
  | [] => (p, true)
  | [s] => (s.foldl replay p, true)
  | s :: _ :: _ => (s.foldl replay p, false)

/-- The loop of `readState` over the log files. It ends at the first one that cannot be read. -/
def readLogs (p : Persist ι) : List (FileName × List (List (Record ι))) → Persist ι
  | [] => p
  | (_, streams) :: files =>
    match p.readLog streams with
    | (p', true) => p'.readLogs files
    | (p', false) => p'

/-- The state right after a snapshot was restored. -/
def ofSnap : Option (FileName × Term × Index) → Persist ι
  | none => fresh
  | some (_, t, i) =>
    { fresh with
      baseTerm := t
      baseIndex := i
      lastTerm := t
      lastIndex := i
      lastSnap := some (t, i) }

end Persist

namespace Dir

/-- The state that `readState` reads. -/
def read (d : Dir ι) : Persist ι :=
  if d.firstLog ∈ d.logs.keys then
    (Persist.ofSnap d.latestSnap).readLogs (d.logs.scan (d.firstLog ≤ ·))
  else Persist.ofSnap d.latestSnap

/-- The files that `readState` leaves: snapshots without a log file are removed, so are those that
have no readable name and come after the one restored, and so are the log files before the first
one to read. -/
def cleaned (d : Dir ι) : Dir ι where
  logs := (d.logs.keys.filter fun f ↦ d.firstLog ∉ d.logs.keys ∨ f < d.firstLog).foldl
    (fun t f ↦ AList.erase f t) d.logs
  snaps := (d.snaps.keys.filter fun f ↦
      ¬d.Complete f ∨ (parseFileName f = none ∧ ∀ s ∈ d.latestSnap, s.1 < f)).foldl
    (fun t f ↦ AList.erase f t) d.snaps

end Dir

/-! ## The persistent state with its files -/

/-- `fsPersist` over its directory; `lf` is the log file that the current encoder writes to. -/
structure FsPersist (ι : Type) where
  p : Persist ι
  dir : Dir ι
  lf : FileName

namespace FsPersist

/-- `openPersist` on a directory: read the state, then start a new log. -/
def openPersist (d : Dir ι) : FsPersist ι :=
  let p := d.read
  let f := termIndexToFileName p.lastTerm p.lastIndex
  { p := p
    dir := d.cleaned.newLog f [.control p.currentTerm p.votedFor]
    lf := f }

/-- Write a record to the log. -/
def write (s : FsPersist ι) (r : Record ι) : FsPersist ι := { s with dir := s.dir.encode s.lf r }

/-- `syncLog` in the state `p`. -/
def syncLog (s : FsPersist ι) (p : Persist ι) : FsPersist ι :=
  { s with p := p }.write (.control p.currentTerm p.votedFor)

/-- Add an entry to the log file and to the tail of the log. -/
def addEntry (s : FsPersist ι) (e : LogEntry) : FsPersist ι :=
  { s with p := s.p.addToLogTail e }.write (.entry e)

/-- The loop of `AppendToLog` with its writes. -/
def appendEntries (s : FsPersist ι) : Index → List LogEntry → FsPersist ι
  | _, [] => s
  | i, e :: es =>
    if (s.p.lookup i).map LogEntry.term = some e.term then s.appendEntries (i + 1) es
    else (s.addEntry e).appendEntries (i + 1) es

/-- The records that `trimLog` writes to the new log file. -/
def trimmedRecords (p : Persist ι) (i : Index) : List (Record ι) :=
  (Server.entriesFrom p p.logTail.entries.length (i + 1)).map Record.entry ++
    [.control p.currentTerm p.votedFor]

/-- `takeSnapshot` at the place `(t, i)`, when the client has written its snapshot: without an entry
at that place the log cannot be trimmed and the snapshot file is removed. -/
def takeSnapshot (s : FsPersist ι) (t : Term) (i : Index) : FsPersist ι :=
  let f := termIndexToFileName t i
  match s.p.finishSnapshot t i with
  | .error _ => { s with dir := { s.dir with snaps := AList.erase f s.dir.snaps } }
  | .ok p =>
    let dir := { s.dir with snaps := AList.insert f () s.dir.snaps }
    if i = 0 then { s with p := p, dir := dir }
    else { p := p, dir := dir.newLog f (trimmedRecords s.p i), lf := f }

/-- `SnapshotFromLeader`, when the client was restored from the snapshot. -/
def snapshotFromLeader (s : FsPersist ι) (t : Term) (i : Index) : FsPersist ι :=
  { s with
    p := s.p.restoredAt t i
    dir := { s.dir with snaps := AList.insert (termIndexToFileName t i) () s.dir.snaps } }

/-- A call on the persistent state, or a clean restart. -/
inductive Op (ι : Type) where
  | setCurrentTerm (ct : Term)
  | incCurrentTerm
  | setVotedFor (vf : Option ι)
  | setCurrentTermAndVotedFor (ct : Term) (vf : Option ι)
  | appendToLog (prevTerm : Term) (prevIndex : Index) (entries : List LogEntry)
  | takeSnapshot (t : Term) (i : Index)
  | snapshotFromLeader (t : Term) (i : Index)
  | restart

/-- What a call does. `AppendToLog` fails without a change if the previous entry is not the one
given. -/
def exec [DecidableEq ι] (s : FsPersist ι) : Op ι → FsPersist ι
  | .setCurrentTerm ct => s.syncLog (s.p.setCurrentTerm ct)
  | .incCurrentTerm => s.syncLog s.p.incCurrentTerm
  | .setVotedFor vf => if vf = s.p.votedFor then s else s.syncLog (s.p.setVotedFor vf)
  | .setCurrentTermAndVotedFor ct vf => s.syncLog (s.p.setCurrentTermAndVotedFor ct vf)
  | .appendToLog prevTerm prevIndex entries =>
    if s.p.knowsPrevious prevTerm prevIndex then s.appendEntries (prevIndex + 1) entries else s
  | .takeSnapshot t i => s.takeSnapshot t i
  | .snapshotFromLeader t i => s.snapshotFromLeader t i
  | .restart => openPersist s.dir

end FsPersist

end Vanadium.Raft
