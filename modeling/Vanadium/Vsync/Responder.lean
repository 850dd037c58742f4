import Vanadium.Foundations.BinaryHeap
import Vanadium.Vsync.Initiator

/-!
# The responder

`responder.go`: the reply to a request for deltas. Phase 2 diffs the responder's generation vectors
with those of the initiator into one range of generations for each device; phase 3 merges the
records of these ranges by their position in the log with a heap, drops those that the initiator
does not want or already has, and sends the rest, followed by the vectors.
-/

namespace Vanadium.Vsync

open Foundations

/-! ## Phase 2: the missing generations -/

structure GenRange where
  min : ℕ
  max : ℕ
  cur : ℕ
  deriving DecidableEq

abbrev GenRangeVector : Type := Table DevId GenRange

def updateDevRange (devid : DevId) (rgen gen : ℕ) (gens : GenRangeVector) : GenRangeVector :=
  if gen < rgen then
    match AList.lookup devid gens with
    | none => AList.insert devid ⟨gen + 1, rgen, 0⟩ gens
    | some r => AList.insert devid
        ⟨if gen + 1 < r.min then gen + 1 else r.min, if r.max < rgen then rgen else r.max, r.cur⟩
        gens
  else gens

/-- `diffGenVectors`: first the devices that both vectors know, then those that only the responder
knows. -/
def diffGenVectors (respVec initVec : GenVector) (diff : GenRangeVector) : GenRangeVector :=
  let diff := initVec.entries.foldl (fun diff e ↦
    match AList.lookup e.1 respVec with
    | some rgen => updateDevRange e.1 rgen e.2 diff
    | none => diff) diff
  respVec.entries.foldl (fun diff e ↦
    if (AList.lookup e.1 initVec).isNone then updateDevRange e.1 e.2 0 diff else diff) diff

/-- The inner loop of `computeDataDeltas`: a responder prefix below the requested one is diffed and
reported. -/
def deltaBelow (respVecs : Knowledge) (pfx : Prefix) (initgv : GenVector)
    (acc : GenRangeVector × Knowledge) (rp : Prefix) : GenRangeVector × Knowledge :=
  if pfx <+: rp ∧ ¬rp <+: pfx then
    (diffGenVectors ((AList.lookup rp respVecs).getD ∅) initgv acc.1,
      AList.insert rp ((AList.lookup rp respVecs).getD ∅) acc.2)
  else acc

/-- The vector at the requested prefix itself, which is that of the deepest responder prefix that
covers it (`rpStart`). -/
def startVec (id : DevId) (respGen : ℕ) (respVecs : Knowledge) (pfx : Prefix) : GenVector :=
  if deepestPrefix (extractAndSortPrefixes respVecs) pfx = [] then AList.insert id respGen ∅
  else (AList.lookup (deepestPrefix (extractAndSortPrefixes respVecs) pfx) respVecs).getD ∅

/-- The body of `computeDataDeltas` for one outermost requested prefix. -/
def deltaPrefix (id : DevId) (respGen : ℕ) (respVecs initVecs : Knowledge)
    (acc : GenRangeVector × Knowledge) (pfx : Prefix) : GenRangeVector × Knowledge :=
  let initgv : GenVector := (AList.lookup pfx initVecs).getD ∅
  let acc := (extractAndSortPrefixes respVecs).foldl (deltaBelow respVecs pfx initgv) acc
  (diffGenVectors (startVec id respGen respVecs pfx) initgv acc.1,
    AList.insert pfx (startVec id respGen respVecs pfx) acc.2)

/-- `computeDataDeltas`: the ranges of missing generations, and the vectors to report. -/
def computeDataDeltas (s : SyncService) (initVecs : Knowledge) :
    Except SyncErr (GenRangeVector × Knowledge) :=
  match s.copyDbGenInfo [] with
  | .error e => .error e
  | .ok (respVecs, respGen) =>
    match extractAndSortPrefixes initVecs with
    | [] => .error (.fatal "index out of range")
    | pfx :: pfxs => .ok ((pfx :: pfxs).foldl
        (skipNested (deltaPrefix s.id respGen respVecs initVecs)) (pfx, ∅, ∅)).2

/-! ## Phase 3: the records in log order -/

/-- What a call of `getNextLogRec` comes to. -/
inductive NextLogRec where
  | found (rec : LocalLogRec) (r : GenRange)
  | done
  | never

/-- The loop of `getNextLogRec` counts in 64 bits. With the largest number as its bound it has no
end. -/
def GenRange.Ends (r : GenRange) : Prop := r.max + 1 < 2 ^ 64

instance : DecidablePred GenRange.Ends := fun r ↦ inferInstanceAs (Decidable (r.max + 1 < 2 ^ 64))

/-- The generations that the loop looks at, each once. Without an end it goes on from 0. -/
def GenRange.visited (r : GenRange) : List ℕ :=
  if r.Ends then List.range' r.cur (r.max + 1 - r.cur)
  else (List.range (2 ^ 64)).map fun k ↦ (r.cur + k) % 2 ^ 64

/-- `getNextLogRec`: the next stored record of a range, with the range advanced past it. A loop
without an end does not return if it finds nothing. -/
def getNextLogRec (st : Store) (pfx : ByteString) (dev : DevId) (r : GenRange) : NextLogRec :=
  match r.visited.findSome? fun i ↦
    (AList.lookup (logRecKey pfx dev i) st.log).map fun rec ↦ (rec, i) with
  | some (rec, i) => .found rec { r with cur := (i + 1) % 2 ^ 64 }
  | none => if r.Ends then .done else .never

/-- How far a loop has come in the steps that it was given. -/
inductive Ending where
  | returned (e : Option SyncErr)
  | running
  deriving DecidableEq

/-- The body of the loop that fills the heap: the initiator's own records are left out. Nothing
happens after a call that does not return. -/
def firstLogRec (st : Store) (pfx : ByteString) (initiator : DevId)
    (acc : Option (List LocalLogRec × GenRangeVector)) (e : Sigma fun _ : DevId ↦ GenRange) :
    Option (List LocalLogRec × GenRangeVector) :=
  match acc with
  | none => none
  | some acc =>
    if e.1 = initiator then some acc
    else
      match getNextLogRec st pfx e.1 { e.2 with cur := e.2.min } with
      | .found rec r => some (acc.1 ++ [rec], AList.insert e.1 r acc.2)
      | .done => some (acc.1, AList.erase e.1 acc.2)
      | .never => none

/-- The loop that fills the heap with the first record of each device but the initiator. -/
def firstLogRecs (st : Store) (pfx : ByteString) (initiator : DevId) (diff : GenRangeVector) :
    Option (List LocalLogRec × GenRangeVector) :=
  diff.entries.foldl (firstLogRec st pfx initiator) (some ([], diff))

/-- The records in the order in which the main loop takes them from the heap. What is done with a
record does not influence which one comes next. A record under a foreign key would make the loop
look up a range that is not there. -/
def popLogRecs (st : Store) (pfx : ByteString) : ℕ → List LocalLogRec → GenRangeVector →
    List LocalLogRec × Ending
  | fuel, mh, diff =>
    match BinaryHeap.pop (·.pos) mh with
    | none => ([], .returned none)
    | some (rec, mh) =>
      match fuel with
      | 0 => ([], .running)
      | fuel + 1 =>
        match AList.lookup rec.metadata.id diff with
        | none => ([rec], .returned (some (.fatal "nil genRange")))
        | some r =>
          let rest := match getNextLogRec st pfx rec.metadata.id r with
            | .found next r => popLogRecs st pfx fuel (BinaryHeap.push (·.pos) mh next)
                (AList.insert rec.metadata.id r diff)
            | .done => popLogRecs st pfx fuel mh (AList.erase rec.metadata.id diff)
            | .never => ([], .running)
          (rec :: rest.1, rest.2)

/-- The records in the order in which `filterAndSendDeltas` goes through them, as far as it comes in
`fuel` iterations of its main loop. -/
def mergedLogRecs (fuel : ℕ) (st : Store) (pfx : ByteString) (initiator : DevId)
    (diff : GenRangeVector) : List LocalLogRec × Ending :=
  match firstLogRecs st pfx initiator diff with
  | none => ([], .running)
  | some (mh, diff) => popLogRecs st pfx fuel (BinaryHeap.init (·.pos) mh) diff

/-- The loop body of `filterLogRec`: whether to leave the record out, and the largest generation of
its device that the initiator knows at a prefix which covers the key. -/
def filterPrefix (initVecs : Knowledge) (key : ByteString) (dev : DevId) (acc : Bool × ℕ)
    (p : Prefix) : Bool × ℕ :=
  if p <+: key then
    let gen := GenVector.get ((AList.lookup p initVecs).getD ∅) dev
    (false, if acc.2 < gen then gen else acc.2)
  else acc

/-- `filterLogRec`: whether to leave a record out. The initiator wants it if one of its prefixes
covers the key, and has it if one of those vectors does. -/
def filterLogRec (rec : LocalLogRec) (initVecs : Knowledge) (initPfxs : List Prefix) :
    Except SyncErr Bool :=
  match stripFirstKeyPartOrDie rec.metadata.objId with
  | .error e => .error e
  | .ok key =>
    let acc := initPfxs.foldl (filterPrefix initVecs key rec.metadata.id) (true, 0)
    .ok (if rec.metadata.gen ≤ acc.2 then true else acc.1)

def makeWireLogRec (st : Store) (sg : Bool) (rec : LocalLogRec) : Except SyncErr LogRec :=
  let key := (rec.metadata.objId, rec.metadata.curVers)
  if sg then
    match AList.lookup key st.sgData with
    | none => .error .noExist
    | some value => .ok ⟨rec.metadata, some value⟩
  else if rec.metadata.delete = false ∧ rec.metadata.recType = .node then
    match AList.lookup key st.values with
    | none => .error .noExist
    | some value => .ok ⟨rec.metadata, some value⟩
  else .ok ⟨rec.metadata, none⟩

/-- What the main loop does with the records: those not left out are sent, up to the first
failure. -/
def sendLogRecs (st : Store) (sg : Bool) (initVecs : Knowledge) :
    List LocalLogRec → List LogRec × Option SyncErr
  | [] => ([], none)
  | rec :: recs =>
    match (if sg then .ok false else filterLogRec rec initVecs
      (extractAndSortPrefixes initVecs)) with
    | .error e => ([], some e)
    | .ok true => sendLogRecs st sg initVecs recs
    | .ok false =>
      match makeWireLogRec st sg rec with
      | .error e => ([], some e)
      | .ok wireRec =>
        let rest := sendLogRecs st sg initVecs recs
        (wireRec :: rest.1, rest.2)

def filterAndSendDeltas (fuel : ℕ) (st : Store) (sg : Bool) (initiator : DevId)
    (initVecs : Knowledge) (pfx : ByteString) (diff : GenRangeVector) : List LogRec × Ending :=
  let merged := mergedLogRecs fuel st pfx initiator diff
  match sendLogRecs st sg initVecs merged.1 with
  | (sent, some e) => (sent, .returned (some e))
  | (sent, none) => (sent, merged.2)

/-- `sendDataDeltas`: the records and then the vectors, as far as it comes in `fuel` iterations of
the loop over the heap. -/
def sendDataDeltas (fuel : ℕ) (s : SyncService) (st : Store) (initiator : DevId)
    (initVecs : Knowledge) : List DeltaResp × Ending :=
  match computeDataDeltas s initVecs with
  | .error e => ([], .returned (some e))
  | .ok (diff, outVecs) =>
    match filterAndSendDeltas fuel st false initiator initVecs logDataPrefix diff with
    | (sent, .returned none) => (sent.map .logRec ++ [.gvs outVecs], .returned none)
    | (sent, ending) => (sent.map .logRec, ending)

end Vanadium.Vsync
