import Vanadium.Foundations.PrefixOrder
import Vanadium.Vsync.Watcher

/-!
# The initiator

`initiator.go`: one initiation round of one database. Of the transaction in which
`recvAndProcessDeltas` replays the received log records this file has what is done with one record
(`insertRecInLogAndDag`); of the second one, in `processUpdatedObjects`, it has the resolution by
timestamps and the new generation vectors.

A transaction is a session; what it did to the service (counters, batches under construction) stays
even when it is dropped.
-/

namespace Vanadium.Vsync

open Foundations Relation Program
open EStateM (Result)

/-! ## Receiving -/

/-- A message of the `GetDeltas` stream. -/
inductive DeltaResp where
  | gvs (k : Knowledge)
  | logRec (r : LogRec)

/-- The log that a record belongs to: the data log, or the log of its syncgroup. -/
def logPfx (sg : Bool) (oid : Oid) : ByteString := if sg then oid else logDataPrefix

/-- The counters that a new record takes its generation and position from. -/
def logSpace (sg : Bool) (oid : Oid) : Oid := if sg then oid else []

def insertRecInLogAndDag (sg : Bool) (rec : LocalLogRec) : SyncM Unit := do
  let m := rec.metadata
  writeTx fun tx ↦ .ok (tx.putLogRec (logPfx sg m.objId) rec)
  match m.recType, m.parents with
  | .node, parents =>
    addNode m.objId m.curVers (logRecKey (logPfx sg m.objId) m.id m.gen) m.delete parents
      m.batchId true
  | .link, parent :: _ => addParent m.objId m.curVers parent m.batchId true
  | .link, [] => throw (.fatal "index out of range")
  | .unknown, _ => throw (.internal [.text "unknown log record type"])

/-- The session in which `recvAndProcessDeltas` starts: an empty graft that reads heads from the
committed store. -/
def Session.recv (svc : SyncService) (st : Store) : Session :=
  ⟨svc, st, [], ⟨∅, some st⟩, ∅, ∅⟩

/-! ## Last writer wins -/

/-- `getLogRecsBatch` for one version: `none` without a version. -/
def Store.getLogRecOf (st : Store) (oid : Oid) (v : Version) :
    Except SyncErr (Option LocalLogRec) :=
  if v = noVersion then .ok none
  else
    match st.getNode oid v with
    | .error e => .error e
    | .ok node =>
      match st.getLogRecByKey node.logrec with
      | .error e => .error e
      | .ok rec => .ok (some rec)

/-- The choice of `resolveObjConflict`: the later update, and the larger version among equals. -/
def pickByTimestamp (locRec remRec : LocalLogRec) : Option ResolutionType :=
  if remRec.metadata.updTime < locRec.metadata.updTime then some .pickLocal
  else if locRec.metadata.updTime < remRec.metadata.updTime then some .pickRemote
  else if remRec.metadata.curVers < locRec.metadata.curVers then some .pickLocal
  else if locRec.metadata.curVers < remRec.metadata.curVers then some .pickRemote
  else none

def resolveObjConflict (st : Store) (oid : Oid) (loc rem : Version) :
    Except SyncErr ConflictResolution :=
  match st.getLogRecOf oid loc with
  | .error e => .error e
  | .ok locRec =>
    match st.getLogRecOf oid rem with
    | .error e => .error e
    | .ok remRec =>
      match locRec, remRec with
      | some locRec, some remRec =>
        match pickByTimestamp locRec remRec with
        | some ty => .ok ⟨noBatchId, 0, ty, none, none⟩
        | none => .error (.fatal "sync: resolveObjConflictByTime: local and remote are the same")
      | _, _ => .error (.fatal "sync: resolveObjConflict: invalid local or remote recs")

/-- One iteration of `resolveViaTimestamp`: objects not under conflict, or resolved already, are
skipped. -/
def resolveByTimestamp (oid : Oid) : SyncM Unit := do
  let s ← get
  match AList.lookup oid s.updObjects with
  | none => pure ()
  | some confSt =>
    onlyIf (confSt.isConflict = true ∧ confSt.res = none) do
      let res ← readTx (resolveObjConflict · oid confSt.oldHead confSt.newHead)
      set { s with updObjects := AList.insert oid { confSt with res := some res } s.updObjects }

/-- `resolveViaTimestamp` over all updated objects. -/
def resolveViaTimestamp : SyncM Unit := fun s ↦ (s.updObjects.keys.forM resolveByTimestamp) s

/-! ## Applying the outcome -/

def createLocalLinkLogRec (o : Oracle) (sg : Bool) (oid : Oid) (vers par : Version)
    (batchId : BatchId) (batchCount : ℕ) : SyncM LocalLogRec := do
  let s ← get
  let (gen, pos) ← reserveGenAndPos (logSpace sg oid) 1
  pure ⟨⟨s.svc.id, gen, .link, oid, vers, [par], o.now, false, batchId, batchCount⟩, pos⟩

/-! ## Knowledge after the round -/

def mergeGenVectors (lpgv respgv : GenVector) : GenVector :=
  respgv.entries.foldl (fun (gv : GenVector) e ↦
    match AList.lookup e.1 gv with
    | some gen => if gen < e.2 then AList.insert e.1 e.2 gv else gv
    | none => AList.insert e.1 e.2 gv) lpgv

/-- One iteration of `updateSyncSt`: the responder's vector for a prefix goes into the local vectors
of that prefix and of those that extend it. -/
def mergeRemote (genvecs : Knowledge) (rpfx : Prefix) (respgv : GenVector) : Knowledge :=
  let merged : Knowledge := genvecs.mapVals fun lpfx lpgv ↦
    if rpfx <+: lpfx then mergeGenVectors lpgv respgv else lpgv
  match AList.lookup rpfx merged with
  | some _ => merged
  | none => AList.insert rpfx respgv merged

namespace GenVector

/-- How one entry of a vector compares with the other vector. -/
def compareGen (b : GenVector) (id : DevId) (agen : ℕ) : ℤ :=
  match AList.lookup id b with
  | none => 1
  | some bgen => if bgen < agen then 1 else if agen < bgen then -1 else 0

/-- The first loop of `Compare`; `none` is its early return for uncomparable vectors. -/
def compareFrom (b : GenVector) : List (Sigma fun _ : DevId ↦ ℕ) → ℤ → Option ℤ
  | [], res => some res
  | e :: es, res =>
    let resCur := b.compareGen e.1 e.2
    if res = -2 ∨ res = 0 then compareFrom b es resCur
    else if res ≠ resCur ∧ resCur ≠ 0 then none
    else compareFrom b es res

/-- `Compare`: `0` for equal vectors, `-1` and `1` for ordered ones, `2` for uncomparable ones. -/
def compare (a b : GenVector) : ℤ :=
  if a.entries = [] ∧ b.entries = [] then 0
  else
    match compareFrom b a.entries (-2) with
    | none => 2
    | some res =>
      if b.entries.all (fun e ↦ (AList.lookup e.1 a).isSome) then res
      else if res = 1 then 2
      else -1

end GenVector

/-- `sgID`: the third part of a syncgroup object id. -/
def sgID (oid : Oid) : Except SyncErr GroupId :=
  match stripFirstKeyPartOrDie oid with
  | .error _ => .error .other
  | .ok rest =>
    match stripFirstKeyPartOrDie rest with
    | .error _ => .error .other
    | .ok gid => .ok gid

/-- The pending flag of a syncgroup is cleared once the knowledge of the joiner has been reached. -/
def clearSyncPending (tx : Store) (rpfx : Prefix) (genvecs : Knowledge) : Except SyncErr Store :=
  match sgID rpfx with
  | .error e => .error e
  | .ok gid =>
    match AList.lookup gid tx.sgIds with
    | none => .error .noExist
    | some state =>
      let curgv : GenVector := (AList.lookup rpfx genvecs).getD ∅
      if state.syncPending ∧ 0 ≤ curgv.compare state.pendingGenVec then
        .ok { tx with sgIds := AList.insert gid { state with syncPending := false } tx.sgIds }
      else .ok tx

/-- The loop of `updateSyncSt` over the responder's vectors. -/
def mergeRemotes (sg : Bool) : List (Prefix × GenVector) → Knowledge → SyncM Knowledge
  | [], genvecs => pure genvecs
  | (rpfx, respgv) :: remote, genvecs => do
    let genvecs := mergeRemote genvecs rpfx respgv
    onlyIf (sg = true) (writeTx (clearSyncPending · rpfx genvecs))
    mergeRemotes sg remote genvecs

/-- `updateSyncSt`: the new knowledge, without the device's own generations, is persisted and
returned. The pause flag is the one on disk. -/
def updateSyncSt (sg : Bool) : SyncM Knowledge := do
  let s ← get
  match s.svc.syncState with
  | none => throw (.internal [.text "db state not found"])
  | some ds => do
    let genvecs ← mergeRemotes sg (s.remote.entries.map fun e ↦ (e.1, e.2))
      (if sg then ds.sggenvecs else ds.genvecs)
    let updLocal : Knowledge := genvecs.mapVals fun _ gv ↦ AList.erase s.svc.id gv
    writeTx fun tx ↦
      let isPaused := (tx.dbss.map (·.isPaused)).getD false
      .ok { tx with dbss := some (if sg then ⟨ds.genvecs, updLocal, isPaused⟩
        else ⟨updLocal, ds.sggenvecs, isPaused⟩) }
    pure updLocal

/-! ## The second transaction -/

/-! ## One received record -/

/-- The parents of a node record with their levels. -/
def Store.levelsOf (st : Store) (m : LogRecMetadata) : List (Version × ℕ) :=
  m.parents.map fun p ↦ (p, st.levelOf m.objId p)

/-- The store after a node record. -/
def Store.recvNode (st : Store) (sg : Bool) (rec : LocalLogRec) : Store :=
  let pfx := logPfx sg rec.metadata.objId
  (st.putLogRec pfx rec).withNode rec.metadata.objId rec.metadata.curVers
    (st.nodeOf pfx rec.metadata.batchId rec.metadata)

/-- The store after a link record, where `node` is the entry that it extends. -/
def Store.recvLink (st : Store) (sg : Bool) (rec : LocalLogRec) (parent : Version)
    (node : DagNode) : Store :=
  (st.putLogRec (logPfx sg rec.metadata.objId) rec).withParent rec.metadata.objId
    rec.metadata.curVers parent node

section Received

variable {sg : Bool} {rec : LocalLogRec} {s s' : Session} {u : Unit}

/-- **A received node record** is accepted when its parents are stored and its batch, if any, is
open. -/
theorem insertRecInLogAndDag_node_iff (hty : rec.metadata.recType = .node) :
    insertRecInLogAndDag sg rec s = Result.ok u s' ↔
      rec.metadata.parents.length ≤ 2 ∧ rec.metadata.curVers ≠ noVersion ∧
      (∀ p ∈ rec.metadata.parents, p ≠ noVersion ∧ s.tx.Stored rec.metadata.objId p) ∧
      ∃ svc, s.svc.trackNode rec.metadata.batchId rec.metadata.objId rec.metadata.curVers
          = .ok svc ∧
        s' = { s with
          svc := svc
          tx := s.tx.recvNode sg rec
          graft := s.graft.update (s.tx.recvNode sg rec) rec.metadata.objId
            (·.addNode rec.metadata.curVers (s.tx.levelsOf rec.metadata)) } := by
  rw [insertRecInLogAndDag, hty]
  simp only [bind_eq_ok_iff, writeTx_eq_ok_iff, addNode_eq_ok_iff, Store.parentLevels_eq_ok_iff]
  constructor
  · rintro ⟨_, _, ⟨_, h, rfl⟩, hlen, hv, levels, svc, ⟨hps, rfl⟩, hsvc, rfl⟩
    obtain rfl := Except.ok.inj h
    exact ⟨hlen, hv, hps, svc, hsvc, rfl⟩
  · rintro ⟨hlen, hv, hps, svc, hsvc, rfl⟩
    exact ⟨(), _, ⟨_, rfl, rfl⟩, hlen, hv, _, svc, ⟨hps, rfl⟩, hsvc, rfl⟩

/-- **A received link record** is accepted when both versions are stored and distinct, its batch, if
any, is open, and a link that is not yet there closes no cycle. -/
theorem insertRecInLogAndDag_link_iff {parent : Version} {rest : List Version}
    (hty : rec.metadata.recType = .link) (hps : rec.metadata.parents = parent :: rest) :
    insertRecInLogAndDag sg rec s = Result.ok u s' ↔
      rec.metadata.curVers ≠ parent ∧ ∃ node pnode svc,
        s.tx.getNode rec.metadata.objId rec.metadata.curVers = .ok node ∧
        s.tx.getNode rec.metadata.objId parent = .ok pnode ∧
        s.svc.trackLink rec.metadata.batchId rec.metadata.objId rec.metadata.curVers = .ok svc ∧
        (parent ∉ node.parents →
          rec.metadata.curVers ∉ s.tx.ancestors rec.metadata.objId pnode.parents) ∧
        s' = { s with
          svc := svc
          tx := s.tx.recvLink sg rec parent node
          graft := s.graft.update (s.tx.recvLink sg rec parent node) rec.metadata.objId
            (·.addParent rec.metadata.curVers parent pnode.level) } := by
  rw [insertRecInLogAndDag, hty, hps]
  simp only [bind_eq_ok_iff, writeTx_eq_ok_iff, addParent_eq_ok_iff]
  constructor
  · rintro ⟨_, _, ⟨_, h, rfl⟩, hne, node, pnode, svc, hnode, hpnode, hsvc, hcycle, rfl⟩
    obtain rfl := Except.ok.inj h
    exact ⟨hne, node, pnode, svc, hnode, hpnode, hsvc, hcycle, rfl⟩
  · rintro ⟨hne, node, pnode, svc, hnode, hpnode, hsvc, hcycle, rfl⟩
    exact ⟨(), _, ⟨_, rfl, rfl⟩, hne, node, pnode, svc, hnode, hpnode, hsvc, hcycle, rfl⟩

/-- Only node records and link records with a parent are accepted. -/
theorem insertRecInLogAndDag_ok (h : insertRecInLogAndDag sg rec s = Result.ok u s') :
    rec.metadata.recType = .node ∨
      ∃ parent rest, rec.metadata.recType = .link ∧ rec.metadata.parents = parent :: rest := by
  rcases hty : rec.metadata.recType with _ | _ | _
  · exact .inl rfl
  · rcases hps : rec.metadata.parents with _ | ⟨parent, rest⟩
    · rw [insertRecInLogAndDag, hty, hps] at h
      obtain ⟨_, _, -, h⟩ := bind_eq_ok_iff.mp h
      cases h
    · exact .inr ⟨parent, rest, rfl, rfl⟩
  · rw [insertRecInLogAndDag, hty] at h
    obtain ⟨_, _, -, h⟩ := bind_eq_ok_iff.mp h
    cases h

end Received

/-! ## The DAG after one received record -/

namespace Store

variable {st : Store} {sg : Bool} {rec : LocalLogRec} {o : Oid} {v c p parent : Version}
  {node pnode : DagNode}

theorem isParent_recvLink (hnode : st.nodes.lookup rec.nodeKey = some node) :
    (st.recvLink sg rec parent node).IsParent o c p ↔
      st.IsParent o c p ∨ ((o, c) = rec.nodeKey ∧ p = parent) :=
  isParent_withParent hnode

theorem heads_recvLink : (st.recvLink sg rec parent node).heads = st.heads := by
  rw [recvLink, withParent]
  split_ifs <;> rfl

theorem lookup_recvLink_ne {key : Oid × Version} (h : key ≠ rec.nodeKey) :
    AList.lookup key (st.recvLink sg rec parent node).nodes = st.nodes.lookup key := by
  rw [recvLink, withParent]
  split_ifs
  · rfl
  · exact AList.lookup_insert_ne h

end Store

end Vanadium.Vsync
