import Vanadium.Foundations.Ancestry
import Vanadium.Foundations.Program
import Vanadium.Foundations.Traversal
import Vanadium.Vsync.Types

/-!
# The version DAG

`dag.go`: the versions of an object and their parents, the object heads, the write batches, and
the graft bookkeeping of an initiation round.

The first part embeds the functions. The second part says what each of them does to the two things
every later result is about: which versions of an object are stored, and which of them are listed
as parents of which.
-/

namespace Vanadium.Vsync

open Foundations Table Relation Program Option SyncService Vsync.Store
open EStateM (Result)

/-! ## Low-level entries -/

namespace Store

def getNode (st : Store) (oid : Oid) (version : Version) : Except SyncErr DagNode :=
  if version = noVersion then .error (.fatal "sync: getNode: invalid version")
  else
    match AList.lookup (oid, version) st.nodes with
    | none => .error .noExist
    | some node => .ok node

def setNode (st : Store) (oid : Oid) (version : Version) (node : DagNode) : Except SyncErr Store :=
  if version = noVersion then .error (.fatal "sync: setNode: invalid version")
  else .ok { st with nodes := AList.insert (oid, version) node st.nodes }

def hasNode (st : Store) (oid : Oid) (version : Version) : Except SyncErr Bool :=
  if version = noVersion then .error (.fatal "sync: hasNode: invalid version")
  else .ok (AList.lookup (oid, version) st.nodes).isSome

def setHead (st : Store) (oid : Oid) (version : Version) : Except SyncErr Store :=
  if version = noVersion then .error (.fatal "sync: setHead: invalid version")
  else .ok { st with heads := AList.insert oid version st.heads }

def getHead (st : Store) (oid : Oid) : Except SyncErr Version :=
  match AList.lookup oid st.heads with
  | none => .error .noExist
  | some head => .ok head

/-- `getBatch`. The maps of a stored batch are nil after decoding when they are empty. -/
def getBatch (st : Store) (btid : BatchId) : Except SyncErr BatchInfo :=
  if btid = noBatchId then .error (.internal [.text "invalid batch id", .num btid])
  else
    match AList.lookup btid st.batches with
    | none => .error .noExist
    | some info => .ok info

end Store

/-- Encoding and decoding a map turns an empty one into nil. -/
def decodeMap (m : Option (Table Oid Version)) : Option (Table Oid Version) :=
  m.filter (!·.entries.isEmpty)

/-- `setBatch`, with what a later `getBatch` decodes. -/
def Store.setBatch (st : Store) (btid : BatchId) (info : BatchInfo) : Except SyncErr Store :=
  if btid = noBatchId then .error (.internal [.text "invalid batch id", .num btid])
  else
    let stored := ⟨decodeMap info.objects, decodeMap info.linkedObjects, info.count⟩
    .ok { st with batches := AList.insert btid stored st.batches }

/-! ## Statements of a session -/

/-- Read the transaction. -/
def readTx {α : Type} (f : Store → Except SyncErr α) : SyncM α := fun s ↦
  match f s.tx with
  | .ok a => .ok a s
  | .error e => .error e s

/-- Write the transaction. -/
def writeTx (f : Store → Except SyncErr Store) : SyncM Unit := fun s ↦
  match f s.tx with
  | .ok tx => .ok () { s with tx := tx }
  | .error e => .error e s

/-- Update the service. -/
def updateSvc (f : SyncService → Except SyncErr SyncService) : SyncM Unit := fun s ↦
  match f s.svc with
  | .ok svc => .ok () { s with svc := svc }
  | .error e => .error e s

/-! ## Batches -/

def newBatchInfo : BatchInfo := ⟨some ∅, some ∅, 0⟩

namespace SyncService

def startBatch (o : Oracle) (s : SyncService) (st : Store) (btid : BatchId) :
    BatchId × SyncService :=
  if btid = noBatchId then
    (o.rand64 s.batches,
      { s with batches := AList.insert (o.rand64 s.batches) newBatchInfo s.batches })
  else
    match AList.lookup btid s.batches with
    | some _ => (btid, s)
    | none =>
      let info := match st.getBatch btid with
        | .ok info => info
        | .error _ => newBatchInfo
      (btid, { s with batches := AList.insert btid info s.batches })

def addNodeToBatch (s : SyncService) (btid : BatchId) (oid : Oid) (version : Version) :
    Except SyncErr SyncService :=
  if btid = noBatchId then .error (.internal [.text "invalid batch id", .num btid])
  else
    match AList.lookup btid s.batches with
    | none => .error (.internal [.text "unknown batch id", .num btid])
    | some info =>
      match info.objects with
      | none => .error .nilMap
      | some objects =>
        let info := { info with objects := some (AList.insert oid version objects) }
        .ok { s with batches := AList.insert btid info s.batches }

def addLinkToBatch (s : SyncService) (btid : BatchId) (oid : Oid) (version : Version) :
    Except SyncErr SyncService :=
  if btid = noBatchId then .error (.internal [.text "invalid batch id", .num btid])
  else
    match AList.lookup btid s.batches with
    | none => .error (.internal [.text "unknown batch id", .num btid])
    | some info =>
      match info.linkedObjects with
      | none => .error .nilMap
      | some linked =>
        let info := { info with linkedObjects := some (AList.insert oid version linked) }
        .ok { s with batches := AList.insert btid info s.batches }

/-- The batch update of `addNode`: nothing without a batch id. -/
def trackNode (s : SyncService) (btid : BatchId) (oid : Oid) (version : Version) :
    Except SyncErr SyncService :=
  if btid ≠ noBatchId then s.addNodeToBatch btid oid version else .ok s

/-- The batch update of `addParent`. -/
def trackLink (s : SyncService) (btid : BatchId) (oid : Oid) (version : Version) :
    Except SyncErr SyncService :=
  if btid ≠ noBatchId then s.addLinkToBatch btid oid version else .ok s

end SyncService

/-- `endBatch`. Only a batch with member objects is saved. -/
def endBatch (btid : BatchId) (count : ℕ) : SyncM Unit := do
  failIf (btid = noBatchId ∨ count = 0)
    (.internal [.text "invalid batch info", .num btid, .num count])
  let s ← get
  match AList.lookup btid s.svc.batches with
  | none => throw (.internal [.text "unknown batch id", .num btid])
  | some info =>
    failIf (info.count ≠ 0 ∧ info.count ≠ count)
      (.internal [.text "wrong counts for batch", .num btid, .num info.count, .num count])
    onlyIf (0 < (info.objects.map (·.entries.length)).getD 0)
      (writeTx (·.setBatch btid { info with count := count }))
    updateSvc fun svc ↦ .ok { svc with batches := AList.erase btid svc.batches }

/-! ## Ancestors -/

/-- The parents listed by a stored version, as `forEachAncestor` reads them. -/
def Store.parentsOf (st : Store) (oid : Oid) (v : Version) : Option (List Version) :=
  (AList.lookup (oid, v) st.nodes).map (·.parents)

/-- The versions that `forEachAncestor` hands to its callback, in order. Versions that are listed
but not stored were pruned and are skipped. -/
def Store.ancestors (st : Store) (oid : Oid) (startVersions : List Version) : List Version :=
  bfs (st.parentsOf oid)
    (startVersions.length + (st.nodes.entries.map fun e ↦ e.2.parents.length).sum)
    startVersions startVersions

/-! ## Grafting -/

/-- `getObjectGraftInfo`: the entry of an object, created on first use with its current head as the
only candidate. `sntx` is read when the map has no store handle. -/
def GraftMap.getObjectGraftInfo (g : GraftMap) (sntx : Store) (oid : Oid) : GraftInfo :=
  match AList.lookup oid g.objGraft with
  | some info => info
  | none =>
    match (g.st.getD sntx).getHead oid with
    | .ok head => ⟨[], [head], ∅, head⟩
    | .error _ => ⟨[], [], ∅, noVersion⟩

/-- The graft updates of `addNode`. -/
def GraftInfo.addNode (info : GraftInfo) (version : Version) (parentLevels : List (Version × ℕ)) :
    GraftInfo :=
  let info := parentLevels.foldl (fun (info : GraftInfo) p ↦
    { info with
      graftNodes :=
        if p.1 ∈ info.newNodes then info.graftNodes else AList.insert p.1 p.2 info.graftNodes
      newHeads := info.newHeads.filter (· ≠ p.1) }) info
  { info with
    newNodes := info.newNodes.insert version
    newHeads := info.newHeads.insert version }

/-- The graft updates of `addParent`. -/
def GraftInfo.addParent (info : GraftInfo) (version parent : Version) (parentLevel : ℕ) :
    GraftInfo :=
  let nodeNew := decide (version ∈ info.newNodes)
  let parentNew := decide (parent ∈ info.newNodes)
  { info with
    graftNodes :=
      if (nodeNew && !parentNew) || (!nodeNew && parentNew) then
        AList.insert parent parentLevel info.graftNodes
      else info.graftNodes
    newHeads := info.newHeads.filter (· ≠ parent) }

/-- Update the graft entry of one object. -/
def GraftMap.update (g : GraftMap) (sntx : Store) (oid : Oid) (f : GraftInfo → GraftInfo) :
    GraftMap :=
  { g with objGraft := AList.insert oid (f (g.getObjectGraftInfo sntx oid)) g.objGraft }

/-- Update the graft entry of one object in the session. -/
def updateGraft (oid : Oid) (f : GraftInfo → GraftInfo) : SyncM Unit :=
  modify fun s ↦ { s with graft := s.graft.update s.tx oid f }

/-! ## Adding nodes and parents -/

/-- The parents of a new node with their levels; a parent that is not stored is an error. -/
def Store.parentLevels (st : Store) (oid : Oid) :
    List Version → Except SyncErr (List (Version × ℕ))
  | [] => .ok []
  | parent :: parents =>
    match st.getNode oid parent with
    | .error e => .error e
    | .ok pnode =>
      match st.parentLevels oid parents with
      | .error e => .error e
      | .ok levels => .ok ((parent, pnode.level) :: levels)

/-- One more than the deepest parent. -/
def nodeLevel (parentLevels : List (Version × ℕ)) : ℕ :=
  parentLevels.foldl (fun level p ↦ if level ≤ p.2 then p.2 + 1 else level) 0

/-- `addNode`. `graft` tells whether the caller passes its graft map or nil. -/
def addNode (oid : Oid) (version : Version) (logrec : LogKey) (deleted : Bool)
    (parents : List Version) (btid : BatchId) (graft : Bool) : SyncM Unit := do
  failIf (2 < parents.length) (.internal [.text "cannot have more than 2 parents"])
  let levels ← readTx (·.parentLevels oid parents)
  updateSvc (·.trackNode btid oid version)
  writeTx (·.setNode oid version ⟨nodeLevel levels, parents, logrec, btid, deleted⟩)
  onlyIf graft (updateGraft oid (·.addNode version levels))

/-- `addParent`. The cycle check runs over the ancestors of the parent; the batch entry has been
updated by then. -/
def addParent (oid : Oid) (version parent : Version) (btid : BatchId) (graft : Bool) :
    SyncM Unit := do
  failIf (version = parent)
    (.internal [.text "object", .bytes oid, .bytes version, .text "cannot be its own parent"])
  let node ← readTx (·.getNode oid version)
  let pnode ← readTx (·.getNode oid parent)
  updateSvc (·.trackLink btid oid version)
  onlyIf (parent ∉ node.parents) do
    let s ← get
    failIf (version ∈ s.tx.ancestors oid pnode.parents)
      (.internal [.text "cycle on object", .bytes oid, .text ": node", .bytes version,
        .text "is ancestor of parent", .bytes parent])
    writeTx (·.setNode oid version { node with parents := node.parents ++ [parent] })
  onlyIf graft (updateGraft oid (·.addParent version parent pnode.level))

def moveHead (oid : Oid) (head : Version) : SyncM Unit := do
  let ok ← readTx (·.hasNode oid head)
  if ok then writeTx (·.setHead oid head)
  else throw (.internal [.text "node", .bytes oid, .bytes head, .text "does not exist"])

/-! ## Conflict detection -/

/-- The answer of `hasConflict`. -/
structure HeadConflict where
  isConflict : Bool
  newHead : Version
  oldHead : Version
  ancestor : Version
  deriving DecidableEq

/-- The graft node with the largest level; the version breaks ties. -/
def bestAncestor (graftNodes : Table Version ℕ) : Version :=
  (graftNodes.entries.foldl (fun (best : ℕ × Version) e ↦
    if best.1 < e.2 ∨ (best.1 = e.2 ∧ best.2 < e.1) then (e.2, e.1) else best) (0, noVersion)).2

def hasConflict (st : Store) (oid : Oid) (graft : Option GraftMap) :
    Except SyncErr HeadConflict :=
  match graft with
  | none => .error (.internal [.text "no DAG graft map given"])
  | some g =>
    match AList.lookup oid g.objGraft with
    | none => .error (.internal [.text "node", .bytes oid, .text "has no DAG graft info"])
    | some info =>
      let oldHead := match st.getHead oid with
        | .ok head => head
        | .error _ => noVersion
      match info.newHeads with
      | [newHead] =>
        -- one candidate: either only link records came in, or it extends the snapshotted head
        if newHead = info.oldHeadSnap then .ok ⟨false, oldHead, oldHead, noVersion⟩
        else if oldHead = info.oldHeadSnap then .ok ⟨false, newHead, oldHead, noVersion⟩
        else .ok ⟨true, newHead, oldHead, info.oldHeadSnap⟩
      | [h₁, h₂] =>
        let newHead := if h₁ ≠ info.oldHeadSnap then h₁ else h₂
        .ok ⟨true, newHead, oldHead, bestAncestor info.graftNodes⟩
      | heads => .error (.internal
          [.text "node", .bytes oid, .text "invalid count of new heads", .num heads.length])

/-! ## Pruning -/

/-! ## Versions and parents -/

namespace Store

/-- The version is in the DAG of the object. -/
def Stored (st : Store) (oid : Oid) (v : Version) : Prop :=
  ∃ node, AList.lookup (oid, v) st.nodes = some node

/-- `p` is listed as a parent of the stored version `c`. -/
def IsParent (st : Store) (oid : Oid) (c p : Version) : Prop :=
  ∃ node, AList.lookup (oid, c) st.nodes = some node ∧ p ∈ node.parents

/-- The store with one node entry replaced. -/
def withNode (st : Store) (oid : Oid) (version : Version) (node : DagNode) : Store :=
  { st with nodes := AList.insert (oid, version) node st.nodes }

variable {st : Store} {oid o : Oid} {v c p : Version} {node : DagNode}

theorem IsParent.stored (h : st.IsParent oid c p) : st.Stored oid c := by
  obtain ⟨node, hnode, _⟩ := h
  exact ⟨node, hnode⟩

theorem edge_parentsOf : Edge (st.parentsOf oid) c p ↔ st.IsParent oid c p := by
  rw [Edge, IsParent, parentsOf]
  constructor
  · rintro ⟨ps, hps, hp⟩
    obtain ⟨node, hnode, rfl⟩ := map_eq_some_iff.mp hps
    exact ⟨node, hnode, hp⟩
  · rintro ⟨node, hnode, hp⟩
    exact ⟨node.parents, by rw [hnode, map_some], hp⟩

theorem edge_parentsOf_eq : Edge (st.parentsOf oid) = st.IsParent oid := by
  funext c p
  exact propext edge_parentsOf

theorem stored_withNode :
    (st.withNode oid v node).Stored o c ↔ (o, c) = (oid, v) ∨ st.Stored o c := by
  rw [Stored, withNode, lookup_insert_eq_ite]
  by_cases h : (o, c) = (oid, v)
  · simp [h]
  · rw [if_neg h]
    exact ⟨Or.inr, fun hs ↦ hs.resolve_left h⟩

theorem isParent_withNode : (st.withNode oid v node).IsParent o c p ↔
    if (o, c) = (oid, v) then p ∈ node.parents else st.IsParent o c p := by
  rw [IsParent, withNode, lookup_insert_eq_ite]
  by_cases h : (o, c) = (oid, v)
  · simp [h]
  · rw [if_neg h, if_neg h, IsParent]

/-- **The walk over ancestors is exact**: it meets the stored versions reachable from the start. -/
theorem mem_ancestors_iff {start : List Version} {w : Version} :
    w ∈ st.ancestors oid start ↔
      st.Stored oid w ∧ ∃ s ∈ start, ReflTransGen (st.IsParent oid) s w := by
  -- every listed version is a member of this finite set, which the fuel counts
  let U : Finset Version := (st.nodes.entries.flatMap fun e ↦ e.2.parents).toFinset
  have hU : ∀ v p, Edge (st.parentsOf oid) v p → p ∈ U := by
    intro v p hvp
    obtain ⟨node, hnode, hp⟩ := edge_parentsOf.mp hvp
    rw [List.mem_toFinset, List.mem_flatMap]
    exact ⟨⟨(oid, v), node⟩, mem_entries_iff.mpr hnode, hp⟩
  have hcard : U.card ≤ (st.nodes.entries.map fun e ↦ e.2.parents.length).sum := by
    refine (List.toFinset_card_le _).trans ?_
    rw [List.length_flatMap]
  have hstored : (st.parentsOf oid w).isSome ↔ st.Stored oid w := by
    rw [parentsOf, isSome_map, isSome_iff_exists, Stored]
  rw [ancestors, mem_bfs_iff hU (by omega), hstored, edge_parentsOf_eq]

end Store

/-! ## Statements, inverted -/

section Session

variable {α : Type} {s s' : Session} {f : Store → Except SyncErr α}

theorem readTx_eq_ok_iff {a : α} : readTx f s = Result.ok a s' ↔ f s.tx = .ok a ∧ s' = s := by
  rw [readTx]
  cases f s.tx with
  | ok b => simp [eq_comm]
  | error e => simp

variable {u : Unit}

theorem writeTx_eq_ok_iff {f : Store → Except SyncErr Store} :
    writeTx f s = Result.ok u s' ↔ ∃ tx, f s.tx = .ok tx ∧ s' = { s with tx := tx } := by
  rw [writeTx]
  cases f s.tx with
  | ok b => simp [eq_comm]
  | error e => simp

theorem updateSvc_eq_ok_iff {f : SyncService → Except SyncErr SyncService} :
    updateSvc f s = Result.ok u s' ↔ ∃ svc, f s.svc = .ok svc ∧ s' = { s with svc := svc } := by
  rw [updateSvc]
  cases f s.svc with
  | ok b => simp [eq_comm]
  | error e => simp

theorem updateGraft_eq_ok_iff {oid : Oid} {f : GraftInfo → GraftInfo} :
    updateGraft oid f s = Result.ok u s' ↔ s' = { s with graft := s.graft.update s.tx oid f } := by
  rw [updateGraft, modify_apply]
  simp [eq_comm]

theorem onlyIf_updateGraft_eq_ok_iff {oid : Oid} {f : GraftInfo → GraftInfo} {graft : Bool} :
    onlyIf graft (updateGraft oid f) s = Result.ok u s' ↔
      s' = { s with graft := if graft then s.graft.update s.tx oid f else s.graft } := by
  cases graft <;> simp [onlyIf_eq_ok_iff, updateGraft_eq_ok_iff]

end Session

variable {st : Store} {oid : Oid} {version : Version} {btid : BatchId} {s s' : Session} {u : Unit}
  {svc : SyncService} {m : LogRecMetadata} {graft : Bool} {svc' : SyncService}
  {parents : List Version} {info : BatchInfo} {logrec : LogKey} {count : ℕ} {deleted : Bool}

theorem Store.getNode_eq_ok_iff {v : Version} {node : DagNode} :
    st.getNode oid v = .ok node ↔ v ≠ noVersion ∧ st.nodes.lookup (oid, v) = some node := by
  rw [getNode]
  by_cases hv : v = noVersion
  · simp [hv]
  · rw [if_neg hv]
    cases st.nodes.lookup (oid, v) <;> simp [hv]

theorem Store.setNode_eq_ok_iff {st' : Store} {v : Version} {node : DagNode} :
    st.setNode oid v node = .ok st' ↔ v ≠ noVersion ∧ st' = st.withNode oid v node := by
  rw [setNode]
  by_cases hv : v = noVersion
  · simp [hv]
  · rw [if_neg hv]
    simp [hv, withNode, eq_comm]

/-! ## Adding a node -/

/-- The session after a successful `addNode`. -/
def Session.withNode (s : Session) (svc : SyncService) (oid : Oid) (version : Version)
    (node : DagNode) (levels : List (Version × ℕ)) (graft : Bool) : Session :=
  { s with
    svc := svc
    tx := s.tx.withNode oid version node
    graft := if graft then
      s.graft.update (s.tx.withNode oid version node) oid (·.addNode version levels) else s.graft }

/-- **What `addNode` does.** It succeeds when there are at most two parents, all stored, and the
batch, if any, is open; it then stores the node, over an old one if there was one. -/
theorem addNode_eq_ok_iff :
    addNode oid version logrec deleted parents btid graft s = Result.ok u s' ↔
      parents.length ≤ 2 ∧ version ≠ noVersion ∧ ∃ levels svc,
        s.tx.parentLevels oid parents = .ok levels ∧
        s.svc.trackNode btid oid version = .ok svc ∧
        s' = s.withNode svc oid version ⟨nodeLevel levels, parents, logrec, btid, deleted⟩ levels
          graft := by
  rw [addNode]
  simp only [bind_eq_ok_iff, failIf_eq_ok_iff, readTx_eq_ok_iff, updateSvc_eq_ok_iff,
    writeTx_eq_ok_iff, onlyIf_updateGraft_eq_ok_iff, setNode_eq_ok_iff]
  constructor
  · rintro ⟨_, _, ⟨hlen, rfl⟩, levels, _, ⟨hlevels, rfl⟩, _, _, ⟨svc, hsvc, rfl⟩, _, _,
      ⟨_, ⟨hv, rfl⟩, rfl⟩, rfl⟩
    exact ⟨by omega, hv, levels, svc, hlevels, hsvc, rfl⟩
  · rintro ⟨hlen, hv, levels, svc, hlevels, hsvc, rfl⟩
    exact ⟨(), s, ⟨by omega, rfl⟩, levels, s, ⟨hlevels, rfl⟩, (), _, ⟨svc, hsvc, rfl⟩, (), _,
      ⟨_, ⟨hv, rfl⟩, rfl⟩, rfl⟩

/-- The level of a stored version. -/
def Store.levelOf (st : Store) (oid : Oid) (v : Version) : ℕ :=
  ((AList.lookup (oid, v) st.nodes).map (·.level)).getD 0

theorem Store.parentLevels_eq_ok_iff {parents : List Version} {levels : List (Version × ℕ)} :
    st.parentLevels oid parents = .ok levels ↔
      (∀ p ∈ parents, p ≠ noVersion ∧ st.Stored oid p) ∧
        levels = parents.map fun p ↦ (p, st.levelOf oid p) := by
  induction parents generalizing levels with
  | nil => simp [parentLevels, eq_comm]
  | cons p ps ih =>
    rw [parentLevels]
    cases hp : st.getNode oid p with
    | error e =>
      have hno : ¬(p ≠ noVersion ∧ st.Stored oid p) := by
        rintro ⟨hpv, node, hnode⟩
        rw [getNode_eq_ok_iff.mpr ⟨hpv, hnode⟩] at hp
        cases hp
      constructor
      · intro h; cases h
      · rintro ⟨hall, _⟩; exact absurd (hall p List.mem_cons_self) hno
    | ok node =>
      obtain ⟨hpv, hnode⟩ := getNode_eq_ok_iff.mp hp
      have hlevel : st.levelOf oid p = node.level := by rw [levelOf, hnode]; rfl
      have hrest : (match st.parentLevels oid ps with
          | .error e => .error e
          | .ok levels => .ok ((p, node.level) :: levels) : Except SyncErr (List (Version × ℕ)))
            = .ok levels ↔ ∃ ls, st.parentLevels oid ps = .ok ls ∧
              levels = (p, node.level) :: ls := by
        cases st.parentLevels oid ps <;> simp [eq_comm]
      rw [hrest]
      constructor
      · rintro ⟨ls, hls, rfl⟩
        obtain ⟨hall, rfl⟩ := ih.mp hls
        refine ⟨?_, by rw [List.map_cons, hlevel]⟩
        rw [List.forall_mem_cons]
        exact ⟨⟨hpv, node, hnode⟩, hall⟩
      · rintro ⟨hall, rfl⟩
        rw [List.forall_mem_cons] at hall
        exact ⟨_, ih.mpr ⟨hall.2, rfl⟩, by rw [List.map_cons, hlevel]⟩

theorem SyncService.addNodeToBatch_ok (h : svc.addNodeToBatch btid oid version = .ok svc') :
    ∃ info t, svc.batches.lookup btid = some info ∧ info.objects = some t ∧
      svc' = { svc with
        batches := AList.insert btid { info with objects := some (t.insert oid version) }
          svc.batches } := by
  rw [addNodeToBatch] at h
  split at h
  · contradiction
  · split at h
    · contradiction
    · next info hinfo =>
      split at h
      · contradiction
      · next t ht => exact ⟨info, t, hinfo, ht, (Except.ok.inj h).symm⟩

theorem SyncService.addLinkToBatch_ok (h : svc.addLinkToBatch btid oid version = .ok svc') :
    ∃ info t, svc.batches.lookup btid = some info ∧ info.linkedObjects = some t ∧
      svc' = { svc with
        batches := AList.insert btid { info with linkedObjects := some (t.insert oid version) }
          svc.batches } := by
  rw [addLinkToBatch] at h
  split at h
  · contradiction
  · split at h
    · contradiction
    · next info hinfo =>
      split at h
      · contradiction
      · next t ht => exact ⟨info, t, hinfo, ht, (Except.ok.inj h).symm⟩

theorem SyncService.trackNode_frame (h : svc.trackNode btid oid version = .ok svc') :
    svc' = { svc with batches := svc'.batches } := by
  rw [trackNode] at h
  split at h
  · obtain ⟨info, t, -, -, rfl⟩ := addNodeToBatch_ok h
    rfl
  · cases h
    rfl

/-- The batch is under construction, and ending it with `count` will be accepted. -/
def SyncService.OpenBatch (svc : SyncService) (btid : BatchId) (count : ℕ) : Prop :=
  ∃ info objects, AList.lookup btid svc.batches = some info ∧ info.objects = some objects ∧
    (info.count = 0 ∨ info.count = count)

theorem SyncService.exists_trackNode (oid : Oid)
    (version : Version) (h : btid = noBatchId ∨ svc.OpenBatch btid count) :
    ∃ svc', svc.trackNode btid oid version = .ok svc' ∧
      (btid = noBatchId ∨ svc'.OpenBatch btid count) := by
  by_cases hid : btid = noBatchId
  · exact ⟨svc, by rw [trackNode, if_neg (not_not.mpr hid)], .inl hid⟩
  · obtain ⟨info, objects, hinfo, hobj, hcount⟩ := h.resolve_left hid
    rw [trackNode, if_pos hid, addNodeToBatch, if_neg hid]
    simp only [hinfo, hobj]
    exact ⟨_, rfl, .inr ⟨_, _, AList.lookup_insert _, rfl, hcount⟩⟩

/-- The batch of a record, if it has one, is under construction with the map that the record goes
into. -/
def SyncService.Tracks (svc : SyncService) (m : LogRecMetadata) : Prop :=
  m.batchId = noBatchId ∨ ∃ info, AList.lookup m.batchId svc.batches = some info ∧
    (m.recType = .node → info.objects.isSome) ∧ (m.recType = .link → info.linkedObjects.isSome)

/-- Replacing a batch by one that has the same maps or more keeps what is tracked. -/
theorem SyncService.Tracks.insert
    {info info' : BatchInfo} (hm : svc.Tracks m) (hinfo : svc.batches.lookup btid = some info)
    (hobj : info.objects.isSome → info'.objects.isSome)
    (hlink : info.linkedObjects.isSome → info'.linkedObjects.isSome) :
    SyncService.Tracks { svc with batches := svc.batches.insert btid info' } m := by
  refine hm.imp_right ?_
  rintro ⟨infom, hinfom, hnode, hlinkm⟩
  by_cases hid : m.batchId = btid
  · obtain rfl : info = infom := by rw [hid, hinfo] at hinfom; exact some.inj hinfom
    refine ⟨info', ?_, fun h ↦ hobj (hnode h), fun h ↦ hlink (hlinkm h)⟩
    rw [hid, AList.lookup_insert]
  · exact ⟨infom, by rw [AList.lookup_insert_ne hid]; exact hinfom, hnode, hlinkm⟩

theorem SyncService.Tracks.exists_trackNode
    (hm : svc.Tracks m) (hty : m.recType = .node) (oid : Oid) (version : Version) :
    ∃ svc', svc.trackNode m.batchId oid version = .ok svc' ∧
      ∀ m', svc.Tracks m' → svc'.Tracks m' := by
  by_cases hid : m.batchId = noBatchId
  · exact ⟨svc, by rw [trackNode, if_neg (not_not.mpr hid)], fun _ h ↦ h⟩
  · obtain ⟨info, hinfo, hnode, -⟩ := hm.resolve_left hid
    obtain ⟨objects, hobj⟩ := isSome_iff_exists.mp (hnode hty)
    rw [trackNode, if_pos hid, addNodeToBatch, if_neg hid]
    simp only [hinfo, hobj]
    exact ⟨_, rfl, fun m' hm' ↦ hm'.insert hinfo (fun _ ↦ rfl) fun h ↦ h⟩

theorem SyncService.Tracks.exists_trackLink
    (hm : svc.Tracks m) (hty : m.recType = .link) (oid : Oid) (version : Version) :
    ∃ svc', svc.trackLink m.batchId oid version = .ok svc' ∧
      ∀ m', svc.Tracks m' → svc'.Tracks m' := by
  by_cases hid : m.batchId = noBatchId
  · exact ⟨svc, by rw [trackLink, if_neg (not_not.mpr hid)], fun _ h ↦ h⟩
  · obtain ⟨info, hinfo, -, hlink⟩ := hm.resolve_left hid
    obtain ⟨linked, hlinked⟩ := isSome_iff_exists.mp (hlink hty)
    rw [trackLink, if_pos hid, addLinkToBatch, if_neg hid]
    simp only [hinfo, hlinked]
    exact ⟨_, rfl, fun m' hm' ↦ hm'.insert hinfo (fun h ↦ h) fun _ ↦ rfl⟩

/-! ## Adding a parent -/

/-- The store after a successful `addParent`: a parent already listed is not listed again. -/
def Store.withParent (st : Store) (oid : Oid) (version parent : Version) (node : DagNode) :
    Store :=
  if parent ∈ node.parents then st
  else st.withNode oid version { node with parents := node.parents ++ [parent] }

/-- The session after a successful `addParent`. -/
def Session.withParent (s : Session) (svc : SyncService) (oid : Oid) (version parent : Version)
    (node pnode : DagNode) (graft : Bool) : Session :=
  { s with
    svc := svc
    tx := s.tx.withParent oid version parent node
    graft := if graft then
      s.graft.update (s.tx.withParent oid version parent node) oid
        (·.addParent version parent pnode.level) else s.graft }

/-- **What `addParent` does.** It succeeds when both versions are stored and distinct, the batch, if
any, is open, and a link that is not yet there closes no cycle. -/
theorem addParent_eq_ok_iff {parent : Version} :
    addParent oid version parent btid graft s = Result.ok u s' ↔
      version ≠ parent ∧ ∃ node pnode svc,
        s.tx.getNode oid version = .ok node ∧ s.tx.getNode oid parent = .ok pnode ∧
        s.svc.trackLink btid oid version = .ok svc ∧
        (parent ∉ node.parents → version ∉ s.tx.ancestors oid pnode.parents) ∧
        s' = s.withParent svc oid version parent node pnode graft := by
  rw [addParent]
  simp only [bind_eq_ok_iff, failIf_eq_ok_iff, readTx_eq_ok_iff, updateSvc_eq_ok_iff,
    onlyIf_updateGraft_eq_ok_iff]
  simp only [bind_eq_ok_iff, failIf_eq_ok_iff, onlyIf_eq_ok_iff, writeTx_eq_ok_iff,
    setNode_eq_ok_iff, get_apply]
  constructor
  · rintro ⟨_, s, ⟨hne, rfl⟩, node, s, ⟨hnode, rfl⟩, pnode, s, ⟨hpnode, rfl⟩, _, _,
      ⟨svc, hsvc, rfl⟩, _, s₁, hlink, rfl⟩
    have hs₁ : (parent ∉ node.parents → version ∉ s.tx.ancestors oid pnode.parents) ∧
        s₁ = { s with svc := svc, tx := s.tx.withParent oid version parent node } := by
      rcases hlink with ⟨hp, a, s₂, h₂, _, s₃, ⟨hanc, h₃⟩, tx, ⟨_, rfl⟩, rfl⟩ | ⟨hp, rfl⟩
      · cases h₂
        subst h₃
        exact ⟨fun _ ↦ hanc, by rw [withParent, if_neg hp]⟩
      · rw [not_not] at hp
        exact ⟨fun h ↦ absurd hp h, by rw [withParent, if_pos hp]⟩
    obtain ⟨hcyc, rfl⟩ := hs₁
    exact ⟨hne, node, pnode, svc, hnode, hpnode, hsvc, hcyc, rfl⟩
  · rintro ⟨hne, node, pnode, svc, hnode, hpnode, hsvc, hcyc, rfl⟩
    refine ⟨(), s, ⟨hne, rfl⟩, node, s, ⟨hnode, rfl⟩, pnode, s, ⟨hpnode, rfl⟩, (), _,
      ⟨svc, hsvc, rfl⟩, (),
      { s with svc := svc, tx := s.tx.withParent oid version parent node }, ?_, rfl⟩
    by_cases hp : parent ∈ node.parents
    · exact .inr ⟨fun h ↦ h hp, by rw [withParent, if_pos hp]⟩
    · refine .inl ⟨hp, _, _, rfl, (), _, ⟨hcyc hp, rfl⟩, _,
        ⟨(getNode_eq_ok_iff.mp hnode).1, rfl⟩, ?_⟩
      rw [withParent, if_neg hp]

/-- **What `moveHead` does.** -/
theorem moveHead_eq_ok_iff {head : Version} :
    moveHead oid head s = Result.ok u s' ↔
      head ≠ noVersion ∧ s.tx.Stored oid head ∧
        s' = { s with tx := { s.tx with heads := s.tx.heads.insert oid head } } := by
  rw [moveHead]
  simp only [bind_eq_ok_iff, readTx_eq_ok_iff]
  by_cases hv : head = noVersion
  · simp [hasNode, hv]
  · cases hl : s.tx.nodes.lookup (oid, head) with
    | none => simp [hasNode, hv, hl, Store.Stored]
    | some node => simp [hasNode, hv, hl, Store.Stored, writeTx_eq_ok_iff, setHead]

/-! ## Ending a batch -/

/-- What `endBatch` saves: nothing for a batch without member objects. -/
def Store.saveBatch (st : Store) (btid : BatchId) (count : ℕ) (info : BatchInfo) : Store :=
  if 0 < (info.objects.map (·.entries.length)).getD 0 then
    let stored := ⟨decodeMap info.objects, decodeMap info.linkedObjects, count⟩
    { st with batches := AList.insert btid stored st.batches }
  else st

/-- The service once a batch is no longer under construction. -/
def SyncService.dropBatch (svc : SyncService) (btid : BatchId) : SyncService :=
  { svc with batches := AList.erase btid svc.batches }

theorem saveBatch_eq_ok_iff (hid : btid ≠ noBatchId) :
    onlyIf (0 < (info.objects.map (·.entries.length)).getD 0)
      (writeTx (·.setBatch btid { info with count := count })) s = Result.ok u s' ↔
      s' = { s with tx := s.tx.saveBatch btid count info } := by
  rw [onlyIf_eq_ok_iff, writeTx_eq_ok_iff, saveBatch]
  split <;> simp [*, setBatch]

/-- **What `endBatch` does.** -/
theorem endBatch_eq_ok_iff :
    endBatch btid count s = Result.ok u s' ↔
      btid ≠ noBatchId ∧ count ≠ 0 ∧ ∃ info, s.svc.batches.lookup btid = some info ∧
        (info.count = 0 ∨ info.count = count) ∧
        s' = { s with svc := s.svc.dropBatch btid, tx := s.tx.saveBatch btid count info } := by
  rw [endBatch]
  simp only [bind_eq_ok_iff, failIf_eq_ok_iff, get_apply]
  constructor
  · rintro ⟨_, s, ⟨hid, rfl⟩, _, s₁, h₁, h⟩
    cases h₁
    rw [not_or] at hid
    cases hinfo : s.svc.batches.lookup btid with
    | none => rw [hinfo] at h; cases h
    | some info =>
      rw [hinfo] at h
      simp only [bind_eq_ok_iff, failIf_eq_ok_iff, saveBatch_eq_ok_iff hid.1,
        updateSvc_eq_ok_iff] at h
      obtain ⟨_, s, ⟨hcount, rfl⟩, _, _, rfl, svc, hsvc, rfl⟩ := h
      cases hsvc
      exact ⟨hid.1, hid.2, info, rfl, by omega, rfl⟩
  · rintro ⟨hid, hcount, info, hinfo, hsame, rfl⟩
    refine ⟨(), s, ⟨by rw [not_or]; exact ⟨hid, hcount⟩, rfl⟩, s, s, rfl, ?_⟩
    rw [hinfo]
    simp only [bind_eq_ok_iff, failIf_eq_ok_iff, saveBatch_eq_ok_iff hid, updateSvc_eq_ok_iff]
    exact ⟨(), s, ⟨by omega, rfl⟩, (), _, rfl, _, rfl, rfl⟩

/-- A batch that cannot be ended stays as it is. -/
theorem endBatch_error {e : SyncErr} (h : endBatch btid count s = Result.error e s') :
    s' = s ∧ e ≠ .nilMap := by
  rw [endBatch, bind_eq_error_iff] at h
  rcases h with h | ⟨_, s₁, h₁, h⟩
  · obtain ⟨-, rfl, rfl⟩ := failIf_eq_error_iff.mp h
    exact ⟨rfl, by simp⟩
  · obtain ⟨hvalid, rfl⟩ := failIf_eq_ok_iff.mp h₁
    obtain ⟨hid, -⟩ := not_or.mp hvalid
    rw [Program.bind_apply, get_apply] at h
    rcases hinfo : s₁.svc.batches.lookup btid with _ | info
    · simp only [hinfo, throw_apply] at h
      cases h
      exact ⟨rfl, by simp⟩
    · simp only [hinfo, bind_eq_error_iff, failIf_eq_error_iff, failIf_eq_ok_iff] at h
      rcases h with ⟨-, rfl, rfl⟩ | ⟨_, s₂, ⟨-, rfl⟩, h | ⟨_, s₃, -, h⟩⟩
      · exact ⟨rfl, by simp⟩
      · obtain ⟨-, h⟩ := onlyIf_eq_error_iff.mp h
        rw [writeTx, setBatch, if_neg hid] at h
        cases h
      · cases h

theorem Store.saveBatch_frame (st : Store) (btid : BatchId) (count : ℕ) (info : BatchInfo) :
    st.saveBatch btid count info
      = { st with batches := (st.saveBatch btid count info).batches } := by
  rw [saveBatch]
  split_ifs <;> rfl

/-! ## Acyclicity -/

namespace Store

variable {st : Store} {oid o : Oid} {v parent c p : Version} {node pnode : DagNode}

/-- The version occurs in the DAG of the object: it is stored, or listed as a parent of a stored
version (which may be all that pruning left of it). -/
def Occurs (st : Store) (oid : Oid) (v : Version) : Prop :=
  st.Stored oid v ∨ ∃ c, st.IsParent oid c v

theorem isParent_withParent (hnode : st.nodes.lookup (oid, v) = some node) :
    (st.withParent oid v parent node).IsParent o c p ↔
      st.IsParent o c p ∨ ((o, c) = (oid, v) ∧ p = parent) := by
  have hv : st.IsParent oid v p ↔ p ∈ node.parents := by
    rw [IsParent, hnode]
    simp
  rw [withParent]
  split
  · next hp =>
    constructor
    · exact .inl
    · rintro (h | ⟨h, rfl⟩)
      · exact h
      · cases h
        exact ⟨node, hnode, hp⟩
  · rw [isParent_withNode]
    by_cases h : (o, c) = (oid, v)
    · cases h
      rw [if_pos rfl, List.mem_append, List.mem_singleton, hv]
      simp
    · rw [if_neg h]
      simp [h]

theorem stored_withParent (hnode : st.nodes.lookup (oid, v) = some node) :
    (st.withParent oid v parent node).Stored o c ↔ st.Stored o c := by
  rw [withParent]
  split_ifs with hp
  · rfl
  · rw [stored_withNode]
    constructor
    · rintro (h | h)
      · cases h
        exact ⟨node, hnode⟩
      · exact h
    · exact .inr

/-- A node keeps the DAG acyclic if its version is not in the past of its parents. -/
theorem acyclic_withNode (hst : Acyclic (st.IsParent o))
    (hparents : ∀ p ∈ node.parents, ¬ReflTransGen (st.IsParent oid) p v) :
    Acyclic ((st.withNode oid v node).IsParent o) := by
  by_cases ho : o = oid
  · subst ho
    refine hst.replace_node (v := v) fun a b hab ↦ ?_
    rw [isParent_withNode] at hab
    split_ifs at hab with h
    · cases h
      exact .inr ⟨rfl, hparents b hab⟩
    · exact .inl hab
  · refine hst.mono fun a b hab ↦ ?_
    rw [isParent_withNode, if_neg (fun h ↦ ho (Prod.ext_iff.mp h).1)] at hab
    exact hab

/-- The walk that `addParent` makes finds every path from the parent back to the version. -/
theorem not_reaches_of_notMem_ancestors (hne : v ≠ parent)
    (hnode : st.nodes.lookup (oid, v) = some node)
    (hpnode : st.nodes.lookup (oid, parent) = some pnode)
    (hanc : v ∉ st.ancestors oid pnode.parents) :
    ¬ReflTransGen (st.IsParent oid) parent v := by
  intro hreach
  rcases hreach.cases_head with h | ⟨q, ⟨pnode', hpnode', hq⟩, hqv⟩
  · exact hne h.symm
  · rw [hpnode, some_inj] at hpnode'
    subst hpnode'
    exact hanc (mem_ancestors_iff.mpr ⟨⟨node, hnode⟩, q, hq, hqv⟩)

/-- **A link that passes the cycle check keeps the DAG acyclic.** -/
theorem acyclic_withParent (hst : Acyclic (st.IsParent o)) (hne : v ≠ parent)
    (hnode : st.nodes.lookup (oid, v) = some node)
    (hpnode : st.nodes.lookup (oid, parent) = some pnode)
    (hanc : parent ∉ node.parents → v ∉ st.ancestors oid pnode.parents) :
    Acyclic ((st.withParent oid v parent node).IsParent o) := by
  by_cases hp : parent ∈ node.parents
  · rwa [withParent, if_pos hp]
  · by_cases ho : o = oid
    · subst ho
      refine hst.insert_edge (not_reaches_of_notMem_ancestors hne hnode hpnode (hanc hp)) ?_
      intro a b hab
      rcases (isParent_withParent hnode).mp hab with h | ⟨h, rfl⟩
      · exact .inl h
      · exact .inr ⟨(Prod.ext_iff.mp h).2, rfl⟩
    · refine hst.mono fun a b hab ↦ ?_
      rcases (isParent_withParent hnode).mp hab with h | ⟨h, _⟩
      · exact h
      · exact absurd (Prod.ext_iff.mp h).1 ho

end Store

end Vanadium.Vsync
