import Vanadium.Vsync.Types

/-!
# Generations and positions

`sync_state.go`: the counters from which local log records take their generation and every log
record takes its position, the checkpoint that freezes the generation shown to peers, and the
recovery of the counters from the store at start-up.

The functions that the source runs under `syncStateLock` are functions of the service state here,
so one application of them is one atomic step.
-/

namespace Vanadium.Vsync

open Foundations

/-! ## Counters -/

/-- The `dbSyncStateInMem` that is created on first use. -/
def DbSyncStateInMem.fresh : DbSyncStateInMem := ⟨⟨1, 0, 0⟩, ∅, ∅, ∅, false⟩

namespace SyncService

def getOrCreateSyncStateInternal (s : SyncService) : DbSyncStateInMem :=
  s.syncState.getD DbSyncStateInMem.fresh

/-- `reserveGenAndPosInternal`: the first generation and position of the chunk, and the service
after the reservation. An empty `sgoid` names the data log. -/
def reserveGenAndPosInternal (s : SyncService) (sgoid : Oid) (genCount posCount : ℕ) :
    (ℕ × ℕ) × SyncService :=
  let ds := s.getOrCreateSyncStateInternal
  if sgoid = [] then
    ((ds.data.gen, ds.data.pos),
      { s with syncState := some { ds with
          data := ⟨ds.data.gen + genCount, ds.data.pos + posCount, ds.data.checkptGen⟩ } })
  else
    let info := (AList.lookup sgoid ds.sgs).getD ⟨1, 0, 0⟩
    ((info.gen, info.pos),
      { s with syncState := some { ds with
          sgs := AList.insert sgoid
            ⟨info.gen + genCount, info.pos + posCount, info.checkptGen⟩ ds.sgs } })

/-- `reserveGenAndPosInDbLog`, for local updates. -/
def reserveGenAndPosInDbLog (s : SyncService) (sgoid : Oid) (count : ℕ) :
    (ℕ × ℕ) × SyncService :=
  s.reserveGenAndPosInternal sgoid count count

/-- `reservePosInDbLog`, for received log records. -/
def reservePosInDbLog (s : SyncService) (sgoid : Oid) (count : ℕ) : ℕ × SyncService :=
  let r := s.reserveGenAndPosInternal sgoid 0 count
  (r.1.2, r.2)

def sgOID (gid : GroupId) : Oid := [121, keyPartSep, 115, keyPartSep] ++ gid

/-- The loop of `checkptLocalGen` over the requested syncgroups. A syncgroup without state ends it
with an error; those before it stay checkpointed. -/
def checkptSgs : List GroupId → DbSyncStateInMem → Except SyncErr Unit × DbSyncStateInMem
  | [], ds => (.ok (), ds)
  | gid :: gids, ds =>
    match AList.lookup (sgOID gid) ds.sgs with
    | none => (.error (.internal [.text "sg state not found", .bytes gid]), ds)
    | some info => checkptSgs gids
        { ds with sgs := AList.insert (sgOID gid) { info with checkptGen := info.gen - 1 } ds.sgs }

/-- `checkptLocalGen` freezes the generation shown to peers: the last one handed out. -/
def checkptLocalGen (s : SyncService) (sgs : List GroupId) : Except SyncErr Unit × SyncService :=
  match s.syncState with
  | none => (.error (.internal [.text "db state not found"]), s)
  | some ds =>
    if sgs = [] then
      (.ok (), { s with syncState := some { ds with
        data := { ds.data with checkptGen := ds.data.gen - 1 } } })
    else ((checkptSgs sgs ds).1, { s with syncState := some (checkptSgs sgs ds).2 })

def isDbSyncable (s : SyncService) : Bool := !s.getOrCreateSyncStateInternal.isPaused

def updateInMemoryPauseSt (s : SyncService) (isPaused : Bool) : SyncService :=
  { s with syncState := some { s.getOrCreateSyncStateInternal with isPaused := isPaused } }

def initSyncStateInMem (s : SyncService) (sgoid : Oid) : SyncService :=
  let ds := s.getOrCreateSyncStateInternal
  if sgoid = [] then { s with syncState := some ds }
  else
    match AList.lookup sgoid ds.sgs with
    | some _ => { s with syncState := some ds }
    | none => { s with syncState := some { ds with sgs := AList.insert sgoid ⟨1, 0, 0⟩ ds.sgs } }

/-! ## Knowledge shown to peers -/

/-- `copyDbGenInfo`. For data (`sgs` empty) every vector gets the checkpointed local generation,
which is also returned. -/
def copyDbGenInfo (s : SyncService) (sgs : List GroupId) : Except SyncErr (Knowledge × ℕ) :=
  match s.syncState with
  | none => .error (.internal [.text "db state not found"])
  | some ds =>
    if sgs = [] then
      .ok (ds.genvecs.mapVals fun _ gv ↦ AList.insert s.id ds.data.checkptGen gv,
        ds.data.checkptGen)
    else
      .ok (sgs.foldl (fun k gid ↦
        AList.insert (sgOID gid)
          (AList.insert s.id (((AList.lookup (sgOID gid) ds.sgs).map (·.checkptGen)).getD 0)
            ((AList.lookup (sgOID gid) ds.sggenvecs).getD ∅)) k) ∅, 0)

end SyncService

/-! ## Log records -/

namespace Store

/-- `putLogRec`: the record is stored under its own device and generation. -/
def putLogRec (st : Store) (pfx : ByteString) (rec : LocalLogRec) : Store :=
  { st with log := AList.insert (logRecKey pfx rec.metadata.id rec.metadata.gen) rec st.log }

def getLogRecByKey (st : Store) (key : LogKey) : Except SyncErr LocalLogRec :=
  match AList.lookup key st.log with
  | none => .error .noExist
  | some rec => .ok rec

/-- `getPrevLogRec`: the last stored record of a device at or below a generation. -/
def getPrevLogRec (st : Store) (pfx : ByteString) (dev : DevId) : ℕ → Option LocalLogRec
  | 0 => none
  | gen + 1 =>
    match AList.lookup (logRecKey pfx dev (gen + 1)) st.log with
    | some rec => some rec
    | none => getPrevLogRec st pfx dev gen

/-- The last value of the scan over the log records of one device. The keys end in the generation in
fixed-width hexadecimal, so the scan order is the order of generations. -/
def lastLogRec (st : Store) (pfx : ByteString) (id : DevId) : Option LocalLogRec :=
  (st.log.entries.foldl (fun (last : Option (ℕ × LocalLogRec)) e ↦
    if e.1.pfx = pfx ∧ e.1.id = id ∧ ∀ l ∈ last, l.1 < e.1.gen then some (e.1.gen, e.2)
    else last) none).map (·.2)

end Store

/-! ## Start-up -/

/-- `computeCurGenAndPos`. The position is recovered from one record for each device: the last
local one, and the last one at or below the known generation of each remote device. -/
def computeCurGenAndPos (st : Store) (id : DevId) (pfx : ByteString) (genvec : GenVector) :
    ℕ × ℕ :=
  let last := st.lastLogRec pfx id
  let start : Bool × ℕ := (last.isSome, (last.map (·.pos)).getD 0)
  let scan := genvec.entries.foldl (fun (acc : Bool × ℕ) e ↦
    match st.getPrevLogRec pfx e.1 e.2 with
    | none => acc
    | some rec => if acc.2 < rec.pos then (true, rec.pos) else acc) start
  ((last.map (·.metadata.gen)).getD 0 + 1, if scan.1 then scan.2 + 1 else scan.2)

/-- The largest generation of each device over all the vectors of a knowledge map. -/
def maxGenVec (k : Knowledge) : GenVector :=
  k.entries.foldl (fun acc e ↦
    e.2.entries.foldl (fun (acc : GenVector) d ↦
      if acc.get d.1 < d.2 then AList.insert d.1 d.2 acc else acc) acc) ∅

/-- The syncgroup scan of `initSync`: each syncgroup, given with its collection prefixes, gets its
counters back and, if the watcher had seen it, its watch prefixes. -/
def initSyncgroups (st : Store) (id : DevId) (sggenvecs : Knowledge) :
    List (GroupId × List Prefix) → Table Prefix (List GroupId) × Table Oid LocalGenInfo →
      Except SyncErr (Table Prefix (List GroupId) × Table Oid LocalGenInfo)
  | [], acc => .ok acc
  | (gid, pfxs) :: sgs, (watch, infos) =>
    match AList.lookup gid st.sgIds with
    | none => .error .noExist
    | some state =>
      let watch := if state.watched then
          pfxs.foldl (fun w p ↦ AList.insert p (((AList.lookup p w).getD []).insert gid) w) watch
        else watch
      let oid := SyncService.sgOID gid
      let gp := computeCurGenAndPos st id oid ((AList.lookup oid sggenvecs).getD ∅)
      initSyncgroups st id sggenvecs sgs
        (watch, AList.insert oid ⟨gp.1, gp.2, gp.1 - 1⟩ infos)

/-- `initSync` for one database. Without syncgroups no in-memory state is created. -/
def initSync (st : Store) (id : DevId) (sgs : List (GroupId × List Prefix)) :
    Except SyncErr SyncService :=
  let ds := st.dbss.getD ⟨∅, ∅, false⟩
  match initSyncgroups st id ds.sgGenVecs sgs (∅, ∅) with
  | .error e => .error e
  | .ok (watch, infos) =>
    if sgs = [] then .ok ⟨id, none, ∅, watch⟩
    else
      let gp := computeCurGenAndPos st id logDataPrefix (maxGenVec ds.genVecs)
      .ok ⟨id, some ⟨⟨gp.1, gp.2, gp.1 - 1⟩, infos, ds.genVecs, ds.sgGenVecs, ds.isPaused⟩, ∅,
        watch⟩

end Vanadium.Vsync
