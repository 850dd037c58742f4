import Vanadium.Foundations.Bits
import Vanadium.Foundations.Table

/-!
# Data of the sync module

One database of one Syncbase: the persistent store (`Store`), the in-memory state of the sync
service (`SyncService`), and the records that travel between devices. The key ranges of the store
that hold different kinds of entries are separate tables here; a log record key is the triple that
`logRecKey` formats.

Go strings are byte strings, so that `<` on versions and prefixes is the order the code uses.
Generations, positions, levels and counts are natural numbers.
-/

namespace Vanadium.Vsync

open Foundations

/-- A Go `string`. -/
abbrev ByteString : Type := List (Fin 256)

abbrev Oid : Type := ByteString
abbrev Version : Type := ByteString
abbrev Prefix : Type := ByteString
abbrev GroupId : Type := ByteString
abbrev Value : Type := ByteString
abbrev DevId : Type := ℕ
abbrev BatchId : Type := ℕ

def noVersion : Version := []

def noBatchId : BatchId := 0

/-- `KeyPartSep`, the byte `\xfe`. -/
def keyPartSep : Fin 256 := 254

/-- `logDataPrefix`: data log records are stored under `"d"`. -/
def logDataPrefix : ByteString := [100]

/-! ## Errors -/

/-- One argument of a `verror.New` call. -/
inductive ErrPart where
  | text (s : String)
  | bytes (b : ByteString)
  | num (n : ℕ)
  deriving DecidableEq

/-- Why a function of the module fails. `fatal` is `vlog.Fatalf`, which ends the process; `nilMap`
is the run-time panic of a write to a nil map. -/
inductive SyncErr where
  | noExist
  | concurrentTransaction
  | dbOffline
  | stream
  | other
  | internal (parts : List ErrPart)
  | internalErr (cause : SyncErr)
  | fatal (msg : String)
  | nilMap
  deriving DecidableEq

/-! ## Records -/

/-- `interfaces.NodeRec`, `interfaces.LinkRec`, or any other byte. -/
inductive RecType where
  | node
  | link
  | unknown
  deriving DecidableEq

/-- `interfaces.LogRecMetadata`. -/
structure LogRecMetadata where
  id : DevId
  gen : ℕ
  recType : RecType
  objId : Oid
  curVers : Version
  parents : List Version
  updTime : ℤ
  delete : Bool
  batchId : BatchId
  batchCount : ℕ
  deriving DecidableEq

/-- `LocalLogRec`: the metadata is the same on every device, the position is local. -/
structure LocalLogRec where
  metadata : LogRecMetadata
  pos : ℕ
  deriving DecidableEq

/-- `interfaces.LogRec`, the record on the wire. -/
structure LogRec where
  metadata : LogRecMetadata
  value : Option Value
  deriving DecidableEq

/-- The key that `logRecKey` builds. -/
structure LogKey where
  pfx : ByteString
  id : DevId
  gen : ℕ
  deriving DecidableEq

def logRecKey (pfx : ByteString) (id : DevId) (gen : ℕ) : LogKey := ⟨pfx, id, gen⟩

/-- `DagNode`, without the permission references that nothing in the module reads. -/
structure DagNode where
  level : ℕ
  parents : List Version
  logrec : LogKey
  batchId : BatchId
  deleted : Bool
  deriving DecidableEq

/-- `BatchInfo`. A map is `none` when it is nil, which is what decoding an empty map gives. -/
structure BatchInfo where
  objects : Option (Table Oid Version)
  linkedObjects : Option (Table Oid Version)
  count : ℕ
  deriving DecidableEq

/-! ## Knowledge -/

/-- `interfaces.GenVector`: the last generation known of each device. -/
abbrev GenVector : Type := Table DevId ℕ

/-- `interfaces.Knowledge`: a generation vector for each prefix. -/
abbrev Knowledge : Type := Table Prefix GenVector

/-- Reading a Go map of numbers: an absent key reads as zero. -/
def GenVector.get (gv : GenVector) (dev : DevId) : ℕ := (AList.lookup dev gv).getD 0

/-- `DbSyncState`, the persistent sync state. -/
structure DbSyncState where
  genVecs : Knowledge
  sgGenVecs : Knowledge
  isPaused : Bool
  deriving DecidableEq

/-- `SgLocalState`, as far as the watcher and the initiator read it. -/
structure SgLocalState where
  watched : Bool
  syncPending : Bool
  pendingGenVec : GenVector
  deriving DecidableEq

/-! ## The watch log -/

inductive StateChange where
  | pauseSync
  | resumeSync
  deriving DecidableEq

/-- The operation of a watch log entry. -/
inductive Op where
  | put (key : Oid) (version : Version)
  | syncSnapshot (key : Oid) (version : Version)
  | delete (key : Oid)
  | get (key : Oid)
  | scan
  | syncgroup (sgId : GroupId) (prefixes : List Prefix) (remove : Bool)
  | dbStateChange (request : StateChange)
  | unknown
  deriving DecidableEq

/-- `watchable.LogEntry`. -/
structure LogEntry where
  op : Op
  commitTimestamp : ℤ
  fromSync : Bool
  deriving DecidableEq

/-! ## The store -/

/-- The persistent state of one database, or the view that a transaction has of it. The watch log
is the list of committed batches, and `resMark` counts those that the watcher has processed. -/
structure Store where
  nodes : Table (Oid × Version) DagNode
  heads : Table Oid Version
  batches : Table BatchId BatchInfo
  log : Table LogKey LocalLogRec
  versions : Table Oid Version
  values : Table (Oid × Version) Value
  sgData : Table (Oid × Version) Value
  sgIds : Table GroupId SgLocalState
  dbss : Option DbSyncState
  watchLog : List (List LogEntry)
  resMark : ℕ
  deriving DecidableEq

/-- The store of a new database. -/
def Store.empty : Store := ⟨∅, ∅, ∅, ∅, ∅, ∅, ∅, ∅, none, [], 0⟩

/-! ## The service -/

/-- `localGenInfoInMem`. -/
structure LocalGenInfo where
  gen : ℕ
  pos : ℕ
  checkptGen : ℕ
  deriving DecidableEq

structure DbSyncStateInMem where
  data : LocalGenInfo
  sgs : Table Oid LocalGenInfo
  genvecs : Knowledge
  sggenvecs : Knowledge
  isPaused : Bool
  deriving DecidableEq

/-- `syncService`, as far as one database is concerned: the device id, the in-memory sync state, the
batches under construction and the prefixes that the watcher is asked to sync. -/
structure SyncService where
  id : DevId
  syncState : Option DbSyncStateInMem
  batches : Table BatchId BatchInfo
  watchPrefixes : Table Prefix (List GroupId)
  deriving DecidableEq

/-! ## The variables of one sync thread -/

/-- `graftInfo`: where the fragments received in one round are attached to an object's DAG. The two
sets are lists without repetitions. -/
structure GraftInfo where
  newNodes : List Version
  newHeads : List Version
  graftNodes : Table Version ℕ
  oldHeadSnap : Version
  deriving DecidableEq

/-- `graftMap`. Object heads are read through its own store handle when it has one. -/
structure GraftMap where
  objGraft : Table Oid GraftInfo
  st : Option Store
  deriving DecidableEq

inductive ResolutionType where
  | pickLocal
  | pickRemote
  | createNew
  deriving DecidableEq

structure ConflictResolution where
  batchId : BatchId
  batchCount : ℕ
  ty : ResolutionType
  newRec : Option LocalLogRec
  val : Option Value
  deriving DecidableEq

structure ObjConflictState where
  isAddedByCr : Bool
  isConflict : Bool
  newHead : Version
  oldHead : Version
  ancestor : Version
  res : Option ConflictResolution
  deriving DecidableEq

/-- What a watcher batch or an initiation round works on: the service, the view of its transaction
with the operations that the commit will log, and the local variables of the round. The state
survives an error; it is the caller that drops the transaction. -/
structure Session where
  svc : SyncService
  tx : Store
  ops : List Op
  graft : GraftMap
  remote : Knowledge
  updObjects : Table Oid ObjConflictState
  deriving DecidableEq

/-- The statements of a watcher batch or of an initiation round. -/
abbrev SyncM : Type → Type := EStateM SyncErr Session

/-- What the code draws from outside: the random batch ids and versions, the clock and the blob
layer. `rand64` is the value with which the retry loop of `startBatch` ends. -/
structure Oracle where
  rand64 : Table BatchId BatchInfo → BatchId
  rand64_unused : ∀ t, AList.lookup (rand64 t) t = none
  newVersion : ℕ → Version
  now : ℤ
  processBlobRefs : LogRecMetadata → Option Value → Except SyncErr Unit

/-- An oracle that numbers batches and versions and has no objection to any blob. -/
def Oracle.counting : Oracle where
  rand64 t := t.keys.foldr max 0 + 1
  rand64_unused t := by
    rw [Table.lookup_eq_none_iff]
    intro h
    have hle : ∀ (l : List ℕ) (k : ℕ), k ∈ l → k ≤ l.foldr max 0 := by
      intro l k hk
      induction l with
      | nil => cases hk
      | cons a l ih =>
        rcases List.mem_cons.mp hk with rfl | hk
        · exact le_max_left _ _
        · exact (ih hk).trans (le_max_right _ _)
    have := hle _ _ h
    omega
  newVersion n := [118, Fin.ofNat 256 n]
  now := 0
  processBlobRefs _ _ := .ok ()

/-! ## Keys -/

def stripFirstKeyPartOrDie (key : ByteString) : Except SyncErr ByteString :=
  match key.dropWhile (· ≠ keyPartSep) with
  | [] => .error (.fatal "StripFirstKeyPartOrDie: invalid key")
  | _ :: rest => .ok rest

def extractAndSortPrefixes (vec : Knowledge) : List Prefix := vec.keys.insertionSort (· ≤ ·)

theorem mem_extractAndSortPrefixes {vec : Knowledge} {p : Prefix} :
    p ∈ extractAndSortPrefixes vec ↔ ∃ gv, vec.lookup p = some gv := by
  rw [extractAndSortPrefixes, List.mem_insertionSort, Table.mem_keys_iff]

theorem strictSorted_extractAndSortPrefixes (vec : Knowledge) :
    (extractAndSortPrefixes vec).Pairwise (· < ·) :=
  (List.pairwise_insertionSort (· ≤ ·) _).imp₂ (fun _ _ hle hne ↦ lt_of_le_of_ne hle hne)
    ((List.perm_insertionSort _ _).nodup_iff.mpr vec.keys_nodup)

end Vanadium.Vsync
