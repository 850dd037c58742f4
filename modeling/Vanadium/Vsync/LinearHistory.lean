import Vanadium.Vsync.Watcher

/-!
# Application batches and linear history

An application transaction reaches the watcher as one batch of puts and deletes. This file decides
when `processWatchLogBatch` turns it into linear history: the head of each written object ends on
the last write to it, with the previous head and every earlier write of the batch among its
ancestors.

`fixupLogRecordBatch` reads the heads once for the whole batch. So two writes to one object become
siblings, and a deletion needs a head that was there before the batch.
-/

namespace Vanadium.Vsync

open Foundations Relation Program List Session LocalLogRec
open EStateM (Result)

/-! ## The writes of a transaction -/

/-- A put or a delete, with the version that sync gives it. -/
structure Write where
  key : Oid
  version : Version
  deleted : Bool
  deriving DecidableEq

/-- A key of a managed namespace: it has a first part to strip. -/
def IsManagedKey (key : Oid) : Prop := keyPartSep ∈ key

/-- An entry that an application transaction logs on managed keys. -/
def LogEntry.IsApp (e : LogEntry) : Prop :=
  e.fromSync = false ∧
    match e.op with
    | .put key _ => IsManagedKey key
    | .delete key => IsManagedKey key
    | .get _ => True
    | .scan => True
    | _ => False

/-- The write of an entry, given with its index in the batch. -/
def appWrite (o : Oracle) (e : LogEntry × ℕ) : Option Write :=
  match e.1.op with
  | .put key version => some ⟨key, version, false⟩
  | .delete key => some ⟨key, o.newVersion e.2, true⟩
  | _ => none

/-- A syncgroup prefix covers the key. -/
def SyncService.covers (s : SyncService) (key : Oid) : Bool :=
  match s.syncable key with
  | .ok b => b
  | .error _ => false

/-- The writes of a transaction to objects under a syncgroup prefix, in order. -/
def syncableWrites (o : Oracle) (s : SyncService) (logs : List LogEntry) : List Write :=
  (logs.zipIdx.filterMap (appWrite o)).filter (s.covers ·.key)

/-- The write that a log record carries. -/
def LocalLogRec.write (rec : LocalLogRec) : Write :=
  ⟨rec.metadata.objId, rec.metadata.curVers, rec.metadata.delete⟩

theorem exists_strip_of_isManagedKey {key : Oid} (h : IsManagedKey key) :
    ∃ rest, stripFirstKeyPartOrDie key = .ok rest := by
  rw [stripFirstKeyPartOrDie]
  cases hd : key.dropWhile (· ≠ keyPartSep) with
  | nil =>
    have := dropWhile_eq_nil_iff.mp hd keyPartSep h
    simp at this
  | cons a rest => exact ⟨rest, rfl⟩

theorem syncable_of_isManagedKey {s : SyncService} {key : Oid} (h : IsManagedKey key) :
    s.syncable key = .ok (s.covers key) := by
  obtain ⟨rest, hrest⟩ := exists_strip_of_isManagedKey h
  simp only [SyncService.covers, SyncService.syncable, hrest]

theorem convertEntry_of_isApp {o : Oracle} {s : SyncService} {e : LogEntry × ℕ} (he : e.1.IsApp) :
    ∃ r, convertEntry o s e = .ok r ∧ r.map write = (appWrite o e).filter (s.covers ·.key) := by
  obtain ⟨hsync, hop⟩ := he
  rw [convertEntry, if_neg (by simp [hsync]), convertLogRecord, appWrite]
  cases hc : e.1.op with
  | put key | delete key =>
    rw [hc] at hop
    simp only [initialLogRec, syncable_of_isManagedKey hop]
    refine ⟨_, rfl, ?_⟩
    cases hcov : s.covers key <;> simp [write, Option.filter, hcov]
  | get | scan => exact ⟨none, rfl, rfl⟩
  | syncSnapshot | syncgroup | dbStateChange | unknown => rw [hc] at hop; exact hop.elim

theorem convertBatch_of_isApp {o : Oracle} {s : SyncService} {logs : List LogEntry}
    (hlogs : ∀ e ∈ logs, e.IsApp) :
    ∃ batch, convertBatch o s logs = .ok batch ∧ batch.map write = syncableWrites o s logs := by
  have happ : ∀ e ∈ logs.zipIdx, e.1.IsApp := fun e he ↦ hlogs e.1 (fst_mem_of_mem_zipIdx he)
  refine ⟨_, collect_eq_ok_iff.mpr ⟨fun e he ↦ ?_, rfl⟩, ?_⟩
  · obtain ⟨r, hr, -⟩ := convertEntry_of_isApp (o := o) (s := s) (happ e he)
    exact ⟨r, hr⟩
  · rw [syncableWrites, map_filterMap, filter_filterMap]
    refine filterMap_congr fun e he ↦ ?_
    obtain ⟨r, hr, hw⟩ := convertEntry_of_isApp (happ e he)
    rw [hr]
    exact hw

/-! ## What the callers promise -/

/-- Every head is a stored version. -/
def Store.HeadsStored (st : Store) : Prop :=
  ∀ oid head, AList.lookup oid st.heads = some head → head ≠ noVersion ∧ st.Stored oid head

/-- A batch of an application transaction. The versions are new, as `NewVersion` makes them; a put
has stored its value; and the blob layer has no objection. -/
structure AppBatch (o : Oracle) (s : SyncService) (st : Store) (logs : List LogEntry) : Prop where
  isApp : ∀ e ∈ logs, e.IsApp
  version_ne : ∀ w ∈ syncableWrites o s logs, w.version ≠ noVersion
  fresh : ∀ w ∈ syncableWrites o s logs, ¬st.Occurs w.key w.version
  distinct : (syncableWrites o s logs).Pairwise fun a b ↦ (a.key, a.version) ≠ (b.key, b.version)
  value : ∀ w ∈ syncableWrites o s logs, w.deleted = false →
    (AList.lookup (w.key, w.version) st.values).isSome
  blobs : ∀ m v, o.processBlobRefs m v = .ok ()

/-- Every object written ends on its last write, whose ancestors are the head it had and the
earlier writes to it. -/
def LinearlyExtends (st st' : Store) (ws : List Write) : Prop :=
  ∀ before w after, ws = before ++ w :: after → (∀ w' ∈ after, w'.key ≠ w.key) →
    AList.lookup w.key st'.heads = some w.version ∧
    (∀ w' ∈ before, w'.key = w.key → TransGen (st'.IsParent w.key) w.version w'.version) ∧
    ∀ head, AList.lookup w.key st.heads = some head →
      TransGen (st'.IsParent w.key) w.version head

theorem exists_last_repeat {ws : List Write} (h : ¬ws.Pairwise fun a b ↦ a.key ≠ b.key) :
    ∃ before w after, ws = before ++ w :: after ∧ (∃ w' ∈ before, w'.key = w.key) ∧
      ∀ w' ∈ after, w'.key ≠ w.key := by
  induction ws using reverseRecOn with
  | nil => exact absurd List.Pairwise.nil h
  | append_singleton ws x ih =>
    by_cases hx : ∃ w' ∈ ws, w'.key = x.key
    · exact ⟨ws, x, [], rfl, hx, by simp⟩
    · have hws : ¬ws.Pairwise fun a b ↦ a.key ≠ b.key := by
        intro hws
        refine h (pairwise_append.mpr ⟨hws, pairwise_singleton _ _, ?_⟩)
        intro a ha b hb hab
        rw [mem_singleton.mp hb] at hab
        exact hx ⟨a, ha, hab⟩
      obtain ⟨before, w, after, rfl, hrep, hafter⟩ := ih hws
      refine ⟨before, w, after ++ [x], by simp, hrep, forall_mem_append.mpr ⟨hafter, ?_⟩⟩
      exact forall_mem_singleton.mpr fun hkey ↦ hx ⟨w, by simp, hkey.symm⟩

/-! ## Running an application batch -/

section AppBatch

variable {o : Oracle} {s : SyncService} {st : Store} {logs : List LogEntry} {resMark totalCount : ℕ}
  {batch txBatch : List LocalLogRec} {t : Session} (hb : AppBatch o s st logs)
  (hbatch : batch.map LocalLogRec.write = syncableWrites o s logs)

theorem processSyncgroupLogRecord_of_isApp (hlogs : ∀ e ∈ logs, e.IsApp) :
    processSyncgroupLogRecord s logs = (s, none) := by
  induction logs with
  | nil => rfl
  | cons e logs ih =>
    obtain ⟨⟨-, hop⟩, hlogs⟩ := forall_mem_cons.mp hlogs
    rw [processSyncgroupLogRecord]
    cases hc : e.op with
    | syncgroup sgId prefixes remove => rw [hc] at hop; exact hop.elim
    | _ => exact ih hlogs

include hb hbatch

theorem processWatchBlobRefs_of_appBatch : processWatchBlobRefs o s st batch = .ok () := by
  have hmem : ∀ rec ∈ batch, rec.write ∈ syncableWrites o s logs := fun rec hrec ↦
    hbatch ▸ mem_map_of_mem hrec
  rw [processWatchBlobRefs]
  split_ifs with hnil hpfx
  · rfl
  · obtain ⟨rec, hrec⟩ := exists_mem_of_ne_nil _ hnil
    have hcov := (mem_filter.mp (hmem rec hrec)).2
    rw [SyncService.covers, SyncService.syncable, hpfx] at hcov
    split at hcov
    · next heq =>
      split at heq <;> cases heq
      simp at hcov
    · cases hcov
  · refine forM_except_ok fun rec hrec ↦ ?_
    rw [watchBlobRefs]
    split_ifs with hdel
    · rfl
    · obtain ⟨val, hval⟩ := Option.isSome_iff_exists.mp
        (hb.value rec.write (hmem rec hrec) (Bool.not_eq_true _ ▸ hdel))
      rw [write] at hval
      simp only [hval, hb.blobs]

theorem fixup_of_appBatch :
    fixupLogRecordBatch st true batch = .ok txBatch ↔
      (∀ w ∈ syncableWrites o s logs, w.deleted = true →
        (st.heads.lookup w.key).isSome) ∧ txBatch = batch.map st.withHeadParent := by
  have hnew : ∀ rec ∈ batch, (st.nodes.lookup rec.nodeKey).isNone := by
    intro rec hrec
    rw [Option.isNone_iff_eq_none, Option.eq_none_iff_forall_ne_some]
    intro node hnode
    exact hb.fresh rec.write (hbatch ▸ mem_map_of_mem hrec) (Or.inl ⟨node, hnode⟩)
  have hfilter : (batch.filter fun rec ↦ (st.nodes.lookup rec.nodeKey).isNone) = batch :=
    filter_eq_self.mpr hnew
  rw [fixupLogRecordBatch_eq_ok_iff, hfilter, ← hbatch, forall_mem_map]
  refine and_congr_left fun _ ↦ forall₂_congr fun rec hrec ↦ ?_
  constructor
  · rintro ⟨-, -, hdel⟩
    exact hdel (hnew rec hrec)
  · intro hdel
    refine ⟨hb.version_ne rec.write (hbatch ▸ mem_map_of_mem hrec), fun hsome ↦ ?_, fun _ ↦ hdel⟩
    have := hnew rec hrec
    rw [Option.isNone_iff_eq_none] at this
    rw [this] at hsome
    cases hsome

/-- The DAG and the heads after the batch, in terms of its writes. -/
theorem dag_of_watchTransaction {u : Unit}
    (h : watchTransaction o batch none totalCount resMark (start s st) = Result.ok u t) :
    (∀ k c p, t.tx.IsParent k c p ↔
      (∃ w ∈ syncableWrites o s logs, (k, c) = (w.key, w.version) ∧
        st.heads.lookup k = some p) ∨
      ((∀ w ∈ syncableWrites o s logs, (k, c) ≠ (w.key, w.version)) ∧ st.IsParent k c p)) ∧
    (∀ k, t.tx.heads.lookup k =
      (((syncableWrites o s logs).filter (·.key = k)).getLast?.map (·.version)).or
        (st.heads.lookup k)) ∧
    ∀ w ∈ syncableWrites o s logs, w.deleted = true → (st.heads.lookup w.key).isSome := by
  obtain ⟨txBatch, btid, batches, saved, sgIds, hfix, rfl⟩ := watchTransaction_ok h
  obtain ⟨hdel, rfl⟩ := (fixup_of_appBatch hb hbatch).mp hfix
  -- stamping keeps the write and the parents of a record, so the batch can be read off the writes
  have hmap : ((start s st).stamped btid totalCount (batch.map st.withHeadParent)).map
      (fun rec ↦ (rec.write, rec.metadata.parents)) =
        (syncableWrites o s logs).map fun w ↦ (w, (st.heads.lookup w.key).toList) := by
    rw [stamped, map_stampBatch fun _ _ _ ↦ rfl, List.map_map, ← hbatch, List.map_map]
    rfl
  have hmapW : ((start s st).stamped btid totalCount
      (batch.map st.withHeadParent)).map write = syncableWrites o s logs := by
    have := congrArg (map Prod.fst) hmap
    rw [List.map_map, List.map_map] at this
    rw [show (syncableWrites o s logs) = (syncableWrites o s logs).map id from
      (map_id _).symm]
    exact this
  generalize (start s st).stamped btid totalCount (batch.map st.withHeadParent) = recs at hmap hmapW
  have hpair : recs.Pairwise fun a b ↦ a.nodeKey ≠ b.nodeKey := by
    have := hb.distinct
    rw [← hmapW, pairwise_map] at this
    exact this
  refine ⟨fun k c p ↦ ?_, fun k ↦ ?_, hdel⟩
  · have hpar : (recs.foldl Store.applyLocal st).IsParent k c p ↔ _ :=
      Store.isParent_foldl_applyLocal hpair
    refine Iff.trans hpar (or_congr ?_ (and_congr_left fun _ ↦ ?_))
    · have hex : (∃ rec ∈ recs, (k, c) = rec.nodeKey ∧ p ∈ rec.metadata.parents) ↔
          ∃ x ∈ recs.map (fun rec ↦ (rec.write, rec.metadata.parents)),
            (k, c) = (x.1.key, x.1.version) ∧ p ∈ x.2 := by
        simp only [mem_map, exists_exists_and_eq_and]
        rfl
      rw [hex, hmap]
      simp only [mem_map, exists_exists_and_eq_and]
      refine exists_congr fun w ↦ and_congr_right fun _ ↦ and_congr_right fun hk ↦ ?_
      rw [show k = w.key from (Prod.mk.inj hk).1, Option.mem_toList]
    · rw [← hmapW, forall_mem_map]
      rfl
  · have hheads : AList.lookup k (recs.foldl Store.applyLocal st).heads = _ :=
      Store.lookup_heads_foldl_applyLocal
    refine Eq.trans hheads ?_
    rw [← hmapW, filter_map, getLast?_map, Option.map_map]
    rfl

theorem exists_watchTransaction (resMark : ℕ) (hst : st.HeadsStored) (hcount : totalCount ≠ 0)
    (hdel : ∀ w ∈ syncableWrites o s logs, w.deleted = true →
      (st.heads.lookup w.key).isSome) :
    ∃ t, watchTransaction o batch none totalCount resMark (start s st) = Result.ok () t := by
  have hfix := (fixup_of_appBatch hb hbatch).mpr ⟨hdel, rfl⟩
  have hrecs : ∀ rec ∈ batch.map st.withHeadParent, st.Accepts rec := by
    rw [forall_mem_map]
    intro rec hrec
    refine ⟨?_, hb.version_ne rec.write (hbatch ▸ mem_map_of_mem hrec), fun p hp ↦ ?_⟩
    · rw [Store.withHeadParent]
      cases st.heads.lookup rec.metadata.objId <;> simp
    · exact hst _ _ (Option.mem_toList.mp hp)
  obtain ⟨t, ht⟩ := exists_processBatch o true (s := start s st) hcount hrecs
  exact ⟨_, bind_eq_ok_iff.mpr ⟨_, _, readTx_eq_ok_iff.mpr ⟨hfix, rfl⟩,
    bind_eq_ok_iff.mpr ⟨(), t, ht, bind_eq_ok_iff.mpr ⟨(), t, rfl, rfl⟩⟩⟩⟩

/-! ## When a batch is linear history -/

theorem linearlyExtends_of_pairwise
    (h : watchTransaction o batch none totalCount resMark (start s st) = Result.ok () t)
    (hws : (syncableWrites o s logs).Pairwise fun a b ↦ a.key ≠ b.key) :
    LinearlyExtends st t.tx (syncableWrites o s logs) := by
  obtain ⟨hpar, hheads, -⟩ := dag_of_watchTransaction hb hbatch h
  intro before w after heq hafter
  have hbefore : ∀ w' ∈ before, w'.key ≠ w.key := by
    rw [heq, pairwise_append] at hws
    exact fun w' hw' ↦ hws.2.2 w' hw' w mem_cons_self
  have hmem : w ∈ syncableWrites o s logs := by rw [heq]; simp
  refine ⟨?_, fun w' hw' hkey ↦ absurd hkey (hbefore w' hw'), fun head hhead ↦ ?_⟩
  · have hfilter : (syncableWrites o s logs).filter (·.key = w.key) = [w] := by
      rw [heq, filter_append, filter_cons_of_pos (by simp),
        filter_eq_nil_iff.mpr (by simpa using hbefore),
        filter_eq_nil_iff.mpr (by simpa using hafter), nil_append]
    rw [hheads, hfilter]
    rfl
  · exact TransGen.single ((hpar _ _ _).mpr (Or.inl ⟨w, hmem, rfl, hhead⟩))

/-- Two writes to one object are siblings: the later one does not descend from the earlier. -/
theorem not_linearlyExtends_of_repeat (hst : st.HeadsStored)
    (h : watchTransaction o batch none totalCount resMark (start s st) = Result.ok () t)
    (hws : ¬(syncableWrites o s logs).Pairwise fun a b ↦ a.key ≠ b.key) :
    ¬LinearlyExtends st t.tx (syncableWrites o s logs) := by
  intro hlin
  obtain ⟨hpar, -, -⟩ := dag_of_watchTransaction hb hbatch h
  obtain ⟨before, w, after, heq, ⟨w', hw', hkey⟩, hafter⟩ := exists_last_repeat hws
  have hmem : w ∈ syncableWrites o s logs := by rw [heq]; simp
  have hmem' : w' ∈ syncableWrites o s logs := by rw [heq]; simp [hw']
  obtain ⟨-, hpath, -⟩ := hlin before w after heq hafter
  -- every version below the last write is one that the DAG held before the batch
  have hold : ∀ v, TransGen (t.tx.IsParent w.key) w.version v → st.Occurs w.key v := by
    intro v hv
    induction hv with
    | single hstep =>
      rcases (hpar _ _ _).mp hstep with ⟨_, -, -, hhead⟩ | ⟨hnone, -⟩
      · exact Or.inl (hst _ _ hhead).2
      · exact absurd rfl (hnone w hmem)
    | @tail b c _ hstep ih =>
      rcases (hpar _ _ _).mp hstep with ⟨w'', hw'', hk, -⟩ | ⟨-, hbc⟩
      · obtain ⟨hk₁, hk₂⟩ := Prod.mk.inj hk
        rw [hk₁, hk₂] at ih
        exact absurd ih (hb.fresh w'' hw'')
      · exact Or.inr ⟨b, hbc⟩
  exact hb.fresh w' hmem' (hkey ▸ hold w'.version (hpath w' hw' hkey))

end AppBatch

theorem processWatchLogBatch_of_appBatch {o : Oracle} {s : SyncService} {st : Store}
    {logs : List LogEntry} (resMark : ℕ) (hb : AppBatch o s st logs) (hne : logs ≠ []) :
    ∃ batch, batch.map write = syncableWrites o s logs ∧
      processWatchLogBatch o false s st logs resMark =
        runInTransaction s st (watchTransaction o batch none logs.length resMark) := by
  obtain ⟨batch, hconv, hbatch⟩ := convertBatch_of_isApp hb.isApp
  refine ⟨batch, hbatch, ?_⟩
  cases logs with
  | nil => exact absurd rfl hne
  | cons first rest =>
    have hfirst : processDbStateChangeLogRecord s st first resMark = none := by
      have hop := (hb.isApp first mem_cons_self).2
      rw [processDbStateChangeLogRecord]
      cases hc : first.op with
      | dbStateChange request => rw [hc] at hop; exact hop.elim
      | _ => rfl
    rw [processWatchLogBatch]
    simp only [hfirst, processSyncgroupLogRecord_of_isApp hb.isApp, hconv,
      processWatchBlobRefs_of_appBatch hb hbatch]
    cases runInTransaction s st (watchTransaction o batch none (first :: rest).length resMark) with
    | mk res rest' =>
      cases res with
      | ok u => rfl
      | error e => rfl

/-- **When a batch is linear history.** An application batch is accepted and extends the history of
every object it writes linearly exactly when it writes no syncable object twice and deletes only
syncable objects that have a head. -/
theorem processWatchLogBatch_linear_iff (o : Oracle) (s : SyncService) (st : Store)
    (logs : List LogEntry) (resMark : ℕ) (hst : st.HeadsStored) (hb : AppBatch o s st logs) :
    (∃ s' st', processWatchLogBatch o false s st logs resMark = (.ok (), s', st') ∧
      LinearlyExtends st st' (syncableWrites o s logs)) ↔
    (syncableWrites o s logs).Pairwise (fun a b ↦ a.key ≠ b.key) ∧
      ∀ w ∈ syncableWrites o s logs, w.deleted = true →
        (AList.lookup w.key st.heads).isSome := by
  by_cases hne : logs = []
  · subst hne
    refine iff_of_true ⟨s, st, rfl, ?_⟩ ⟨List.Pairwise.nil, by simp [syncableWrites]⟩
    intro before w after heq
    simp [syncableWrites] at heq
  · obtain ⟨batch, hbatch, hrun⟩ := processWatchLogBatch_of_appBatch resMark hb hne
    have hcount : logs.length ≠ 0 := by simpa using hne
    rw [hrun]
    constructor
    · rintro ⟨s', st', hok, hlin⟩
      rw [runInTransaction] at hok
      cases ht : watchTransaction o batch none logs.length resMark (start s st) with
      | error e t => rw [ht] at hok; cases hok
      | ok u t =>
        rw [ht] at hok
        cases hok
        refine ⟨?_, (dag_of_watchTransaction hb hbatch ht).2.2⟩
        by_contra hws
        exact not_linearlyExtends_of_repeat hb hbatch hst ht hws hlin
    · rintro ⟨hws, hdel⟩
      obtain ⟨t, ht⟩ := exists_watchTransaction hb hbatch resMark hst hcount hdel
      exact ⟨t.svc, t.tx, by rw [runInTransaction, ht],
        linearlyExtends_of_pairwise hb hbatch ht hws⟩

/-! ## Two batches -/

/-- A service that watches the prefix `p` for one syncgroup. -/
def watchingP : SyncService := ⟨1, none, ∅, AList.insert [112] [[103]] ∅⟩

/-- The store in which an application has put version `a`, and then `b`, at the row key `r\xfep`. -/
def putStore : Store :=
  { Store.empty with
    values := AList.insert ([114, 254, 112], [98]) [] (AList.insert ([114, 254, 112], [97]) [] ∅) }

theorem putStore_not_occurs (oid : Oid) (v : Version) : ¬putStore.Occurs oid v := by
  rintro (⟨node, hnode⟩ | ⟨c, node, hnode, -⟩)
  · cases hnode
  · cases hnode

/-- The store with a version `a` of the rows `p1` and `p2`, in which an application has put `b` at
`p1`. -/
def twoRows : Store :=
  { Store.empty with
    nodes := AList.insert ([114, 254, 112, 49], [97]) ⟨0, [], logRecKey logDataPrefix 1 1,
      noBatchId, false⟩ (AList.insert ([114, 254, 112, 50], [97]) ⟨0,
        [], logRecKey logDataPrefix 1 2, noBatchId, false⟩ ∅)
    heads := AList.insert [114, 254, 112, 49] [97] (AList.insert [114, 254, 112, 50] [97] ∅)
    values := AList.insert ([114, 254, 112, 49], [98]) [] ∅ }

theorem twoRows_stored {oid : Oid} {v : Version} {node : DagNode}
    (h : AList.lookup (oid, v) twoRows.nodes = some node) : v = [97] ∧ node.parents = [] := by
  rw [twoRows, Table.lookup_insert_eq_ite] at h
  split at h
  · next heq => cases h; exact ⟨(Prod.mk.inj heq).2, rfl⟩
  · rw [Table.lookup_insert_eq_ite] at h
    split at h
    · next heq => cases h; exact ⟨(Prod.mk.inj heq).2, rfl⟩
    · cases h

theorem twoRows_headsStored : twoRows.HeadsStored := by
  intro oid head h
  rw [twoRows, Table.lookup_insert_eq_ite] at h
  split at h
  · next heq => cases h; subst heq; exact ⟨by decide, _, rfl⟩
  · rw [Table.lookup_insert_eq_ite] at h
    split at h
    · next heq => cases h; subst heq; exact ⟨by decide, _, rfl⟩
    · cases h

/-- The entries of a transaction that puts `p1`, deletes `p2` and puts a row that is not synced. -/
def putOneDeleteOther : List LogEntry :=
  [⟨.put [114, 254, 112, 49] [98], 0, false⟩, ⟨.delete [114, 254, 112, 50], 0, false⟩,
    ⟨.put [114, 254, 113] [99], 0, false⟩]

theorem appBatch_putOneDeleteOther : AppBatch Oracle.counting watchingP twoRows
    putOneDeleteOther where
  isApp := by simp [putOneDeleteOther, LogEntry.IsApp, IsManagedKey, keyPartSep]
  version_ne := by decide
  fresh w hw := by
    have hne : ∀ w ∈ syncableWrites Oracle.counting watchingP putOneDeleteOther, w.version
      ≠ [97] := by
      decide
    rintro (⟨node, hnode⟩ | ⟨c, node, hnode, hmem⟩)
    · exact hne w hw (twoRows_stored hnode).1
    · rw [(twoRows_stored hnode).2] at hmem
      exact not_mem_nil hmem
  distinct := by decide
  value := by decide
  blobs _ _ := rfl

/-- Both synced rows get a new head over the one they had. -/
theorem putOneDeleteOther_linear : ∃ s' st',
    processWatchLogBatch Oracle.counting false watchingP twoRows putOneDeleteOther 1 =
    (.ok (), s', st') ∧
      LinearlyExtends twoRows st' (syncableWrites Oracle.counting watchingP putOneDeleteOther) :=
  (processWatchLogBatch_linear_iff _ _ _ _ 1 twoRows_headsStored appBatch_putOneDeleteOther).mpr
    ⟨by decide, by decide⟩

/-- The entries of a transaction that puts a row twice. -/
def putTwice : List LogEntry :=
  [⟨.put [114, 254, 112] [97], 0, false⟩, ⟨.put [114, 254, 112] [98], 0, false⟩]

/-- The entries of a transaction that puts a row and deletes it again. -/
def putDelete : List LogEntry :=
  [⟨.put [114, 254, 112] [97], 0, false⟩, ⟨.delete [114, 254, 112], 0, false⟩]

/-- Both are application batches like any other. The first leaves its two versions as siblings
without parents; the second is rejected, which stops the watcher of the database. -/
theorem putTwice_forks_putDelete_rejected :
    AppBatch Oracle.counting watchingP putStore putTwice ∧
    (processWatchLogBatch Oracle.counting false watchingP putStore putTwice 1).1 = .ok () ∧
    (processWatchLogBatch Oracle.counting false watchingP putStore putTwice 1).2.2.getHead
      [114, 254, 112] = .ok [98] ∧
    (processWatchLogBatch Oracle.counting false watchingP putStore putTwice 1).2.2.parentsOf
      [114, 254, 112] [97] = some [] ∧
    (processWatchLogBatch Oracle.counting false watchingP putStore putTwice 1).2.2.parentsOf
      [114, 254, 112] [98] = some [] ∧
    AppBatch Oracle.counting watchingP putStore putDelete ∧
    (processWatchLogBatch Oracle.counting false watchingP putStore putDelete 1).1
      = .error (.internal
          [.text "cannot getHead to fixup log record", .bytes [114, 254, 112]]) := by
  refine ⟨?_, by decide +kernel, by decide +kernel, by decide +kernel, by decide +kernel, ?_,
    by decide +kernel⟩
  · exact { isApp := by simp [putTwice, LogEntry.IsApp, IsManagedKey, keyPartSep]
            version_ne := by decide
            fresh := fun w _ ↦ putStore_not_occurs w.key w.version
            distinct := by decide
            value := by decide
            blobs := fun _ _ ↦ rfl }
  · exact { isApp := by simp [putDelete, LogEntry.IsApp, IsManagedKey, keyPartSep]
            version_ne := by decide
            fresh := fun w _ ↦ putStore_not_occurs w.key w.version
            distinct := by decide
            value := by decide
            blobs := fun _ _ ↦ rfl }

end Vanadium.Vsync
