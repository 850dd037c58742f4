import Vanadium.Foundations.Transition
import Vanadium.Vsync.Watcher

/-!
# Generations across restarts

The generation counter of a log lives in memory and is recovered at start-up from the last local
record on disk. A generation that was handed out to a transaction that then aborted leaves no
record, and still a checkpoint covers it. This file follows one device through transactions,
checkpoints, replies to peers, crashes and restarts, for its data log and for the logs of all its
syncgroups, and asks whether a generation that a reply has covered can be given to a record that is
created later.

It can: after the restart the counter falls back behind what the checkpoint reported
(`aborted_generation_reissued`). If a checkpoint is cut only when the last generation handed out
belongs to a record on disk, it cannot (`reported_generation_never_reissued`).
-/

namespace Vanadium.Vsync

open Foundations Table Transition List Option SyncService AList

/-! ## The step system -/

/-- A log of the database: `none` is the data log, `some gid` the log of a syncgroup. -/
abbrev LogSpace : Type := Option GroupId

/-- The `sgoid` argument that names the log in the counter functions. -/
def LogSpace.oid : LogSpace → Oid
  | none => []
  | some gid => SyncService.sgOID gid

/-- The prefix under which the records of the log are stored. -/
def LogSpace.pfx : LogSpace → ByteString
  | none => logDataPrefix
  | some gid => SyncService.sgOID gid

/-- An open transaction: the log records that it will write and the syncgroups that it adds. -/
structure OpenTx where
  recs : List (LogSpace × LocalLogRec)
  sgs : List (GroupId × List Prefix)
  deriving DecidableEq

/-- What peers and records can tell apart: a reply has reported the local generation `g` of a log,
or a local record with generation `g` was created for a log. -/
inductive GenEvent where
  | report (sp : LogSpace) (g : ℕ)
  | create (sp : LogSpace) (g : ℕ)
  deriving DecidableEq

/-- One device: service and store, the open transactions, the syncgroups in the store, and what has
happened so far. -/
structure Lifetime where
  svc : SyncService
  st : Store
  txs : List OpenTx
  sgs : List (GroupId × List Prefix)
  history : List GenEvent
  deriving DecidableEq

/-- What can happen next. `reserve` takes `count` generations for the given records, not all of
which need a record; `receive` stores records of other devices. -/
inductive LifeAction where
  | beginTx
  | reserve (i : ℕ) (sp : LogSpace) (recs : List LocalLogRec) (btid : BatchId) (count : ℕ)
  | receive (i : ℕ) (sp : LogSpace) (recs : List LocalLogRec)
  | addSyncgroup (i : ℕ) (gid : GroupId) (pfxs : List Prefix)
  | commit (i : ℕ)
  | abort (i : ℕ)
  | initState (sp : LogSpace)
  | checkpt (sgs : List GroupId)
  | reply (sgs : List GroupId)
  | restart
  deriving DecidableEq

namespace Lifetime

/-- A device that starts on an empty store. -/
def start (id : DevId) : Lifetime := ⟨⟨id, none, ∅, ∅⟩, Store.empty, [], [], []⟩

/-- A transaction only writes to logs of its database: data records exist for the prefixes of some
syncgroup, and the log of a syncgroup is written when the syncgroup is added or later. -/
def knows (sgs : List (GroupId × List Prefix)) : LogSpace → Bool
  | none => !sgs.isEmpty
  | some gid => gid ∈ sgs.map Prod.fst

/-- The log writes of a transaction, and the entries of the syncgroups that it adds. -/
def commitTx (st : Store) (tx : OpenTx) : Store :=
  let st' := tx.recs.foldl (fun st r ↦ st.putLogRec r.1.pfx r.2) st
  { st' with sgIds := tx.sgs.foldl (fun t sg ↦ AList.insert sg.1 ⟨false, false, ∅⟩ t) st'.sgIds }

/-- The generations that a reply reports, read off the vectors that it carries. -/
def reports (id : DevId) (respVecs : Knowledge) (gen : ℕ) (sgs : List GroupId) : List GenEvent :=
  if sgs = [] then [.report none gen]
  else sgs.map fun gid ↦
    .report (some gid) (((AList.lookup (SyncService.sgOID gid) respVecs).map (·.get id)).getD 0)

/-- One step of the device. -/
def step (l : Lifetime) : LifeAction → Option Lifetime
  | .beginTx => some { l with txs := l.txs ++ [⟨[], []⟩] }
  | .reserve i sp recs btid count =>
    match l.txs[i]? with
    | none => none
    | some tx =>
      if recs.length ≤ count ∧ ∀ rec ∈ recs, rec.metadata.id = l.svc.id then
        let r := l.svc.reserveGenAndPosInDbLog sp.oid count
        let new := stampBatch btid count r.1.1 r.1.2 recs
        some { l with
          svc := r.2
          txs := l.txs.set i { tx with recs := tx.recs ++ new.map fun rec ↦ (sp, rec) }
          history := l.history ++ new.map fun rec ↦ .create sp rec.metadata.gen }
      else none
  | .receive i sp recs =>
    match l.txs[i]? with
    | none => none
    | some tx =>
      if ∀ rec ∈ recs, rec.metadata.id ≠ l.svc.id then
        some { l with
          svc := (l.svc.reservePosInDbLog sp.oid recs.length).2
          txs := l.txs.set i { tx with recs := tx.recs ++ recs.map fun rec ↦ (sp, rec) } }
      else none
  | .addSyncgroup i gid pfxs =>
    match l.txs[i]? with
    | none => none
    | some tx =>
      if gid ∈ l.sgs.map Prod.fst ∨ gid ∈ tx.sgs.map Prod.fst then none
      else some { l with txs := l.txs.set i { tx with sgs := tx.sgs ++ [(gid, pfxs)] } }
  | .commit i =>
    match l.txs[i]? with
    | none => none
    | some tx =>
      if ∀ r ∈ tx.recs, knows (l.sgs ++ tx.sgs) r.1 = true then
        some { l with
          st := commitTx l.st tx
          txs := l.txs.eraseIdx i
          sgs := l.sgs ++ tx.sgs }
      else none
  | .abort i => some { l with txs := l.txs.eraseIdx i }
  | .initState sp => some { l with svc := l.svc.initSyncStateInMem sp.oid }
  | .checkpt sgs => some { l with svc := (l.svc.checkptLocalGen sgs).2 }
  | .reply sgs =>
    match l.svc.copyDbGenInfo sgs with
    | .error _ => none
    | .ok (respVecs, gen) =>
      some { l with history := l.history ++ reports l.svc.id respVecs gen sgs }
  | .restart =>
    match initSync l.st l.svc.id l.sgs with
    | .error _ => none
    | .ok svc => some { l with svc := svc, txs := [] }

end Lifetime

/-- **No reuse.** No local generation that a reply covered is given to a record created later. -/
def NotReissued (history : List GenEvent) : Prop :=
  history.Pairwise fun e e' ↦ ∀ sp r g, e = .report sp r → e' = .create sp g → r < g

/-! ## The counters of one log -/

variable {sgs : List GroupId} {respVecs : Knowledge} {gen : ℕ}

namespace SyncService

/-- The counters of a log, created on first use. -/
def genInfo (s : SyncService) : LogSpace → LocalGenInfo
  | none => s.getOrCreateSyncStateInternal.data
  | some gid => (AList.lookup (sgOID gid) s.getOrCreateSyncStateInternal.sgs).getD ⟨1, 0, 0⟩

theorem sgOID_injective : Function.Injective sgOID := fun _ _ h ↦ append_cancel_left h

variable (s : SyncService) (oid : Oid)

theorem id_reserve (g p : ℕ) :
    (s.reserveGenAndPosInternal oid g p).2.id = s.id := by
  rw [reserveGenAndPosInternal]
  split_ifs <;> rfl

theorem genInfo_reserve (sp sp' : LogSpace) (g p : ℕ) :
    (s.reserveGenAndPosInternal sp.oid g p).1.1 = (s.genInfo sp).gen ∧
      ((s.reserveGenAndPosInternal sp.oid g p).2.genInfo sp').checkptGen
        = (s.genInfo sp').checkptGen ∧
      ((s.reserveGenAndPosInternal sp.oid g p).2.genInfo sp').gen
        = (s.genInfo sp').gen + if sp' = sp then g else 0 := by
  cases sp with
  | none =>
    rw [reserveGenAndPosInternal, if_pos (show LogSpace.oid none = [] from rfl)]
    cases sp' <;> exact ⟨rfl, rfl, rfl⟩
  | some gid =>
    rw [reserveGenAndPosInternal, if_neg (show LogSpace.oid (some gid) ≠ [] from cons_ne_nil _ _)]
    cases sp' with
    | none => exact ⟨rfl, rfl, rfl⟩
    | some gid' =>
      simp only [genInfo, getOrCreateSyncStateInternal, getD_some, LogSpace.oid,
        lookup_insert_eq_ite, sgOID_injective.eq_iff, some.injEq]
      by_cases h : gid' = gid
      · subst h
        simp
      · simp [h]

theorem genInfo_initSyncStateInMem (sp : LogSpace) :
    (s.initSyncStateInMem oid).genInfo sp = s.genInfo sp := by
  rw [initSyncStateInMem]
  split
  · cases sp <;> rfl
  · cases hl : s.getOrCreateSyncStateInternal.sgs.lookup oid with
    | some info => cases sp <;> rfl
    | none =>
      cases sp with
      | none => rfl
      | some gid =>
        simp only [genInfo, getOrCreateSyncStateInternal, getD_some, lookup_insert_eq_ite]
        by_cases h : sgOID gid = oid
        · subst h
          rw [getOrCreateSyncStateInternal] at hl
          rw [if_pos rfl, hl]
          rfl
        · rw [if_neg h]

/-- The logs that a checkpoint or a request with these syncgroups is about. -/
def spaces (sgs : List GroupId) : List LogSpace := if sgs = [] then [none] else sgs.map some

theorem checkptSgs_spec (gids : List GroupId) (ds : DbSyncStateInMem) :
    (checkptSgs gids ds).2.data = ds.data ∧ ∀ oid,
      ((lookup oid (checkptSgs gids ds).2.sgs).getD ⟨1, 0, 0⟩).gen
          = ((ds.sgs.lookup oid).getD ⟨1, 0, 0⟩).gen ∧
        (((lookup oid (checkptSgs gids ds).2.sgs).getD ⟨1, 0, 0⟩).checkptGen
            = ((ds.sgs.lookup oid).getD ⟨1, 0, 0⟩).checkptGen ∨
          ∃ gid ∈ gids, oid = sgOID gid ∧
            ((lookup oid (checkptSgs gids ds).2.sgs).getD ⟨1, 0, 0⟩).checkptGen
              = ((ds.sgs.lookup oid).getD ⟨1, 0, 0⟩).gen - 1) := by
  induction gids generalizing ds with
  | nil => exact ⟨rfl, fun oid ↦ ⟨rfl, .inl rfl⟩⟩
  | cons gid gids ih =>
    rw [checkptSgs]
    cases hl : ds.sgs.lookup (sgOID gid) with
    | none => exact ⟨rfl, fun oid ↦ ⟨rfl, .inl rfl⟩⟩
    | some info =>
      obtain ⟨hdata, hsgs⟩ := ih { ds with
        sgs := insert (sgOID gid) { info with checkptGen := info.gen - 1 } ds.sgs }
      refine ⟨hdata, fun oid ↦ ?_⟩
      obtain ⟨hgen, hck⟩ := hsgs oid
      rw [lookup_insert_eq_ite] at hgen hck
      by_cases hoid : oid = sgOID gid
      · subst hoid
        rw [if_pos rfl, getD_some] at hgen hck
        rw [hl, getD_some]
        refine ⟨hgen, .inr ?_⟩
        rcases hck with hck | ⟨gid', -, -, hck⟩
        · exact ⟨gid, mem_cons_self, rfl, hck⟩
        · exact ⟨gid, mem_cons_self, rfl, hck⟩
      · rw [if_neg hoid] at hgen hck
        refine ⟨hgen, hck.imp_right ?_⟩
        rintro ⟨gid', hmem, heq, hck⟩
        exact ⟨gid', mem_cons_of_mem _ hmem, heq, hck⟩

/-- A checkpoint moves no counter, and freezes the logs it is about at the last generation. -/
theorem genInfo_checkptLocalGen (sgs : List GroupId) (sp : LogSpace) :
    ((s.checkptLocalGen sgs).2.genInfo sp).gen = (s.genInfo sp).gen ∧
      (((s.checkptLocalGen sgs).2.genInfo sp).checkptGen = (s.genInfo sp).checkptGen ∨
        (sp ∈ spaces sgs ∧
          ((s.checkptLocalGen sgs).2.genInfo sp).checkptGen = (s.genInfo sp).gen - 1)) := by
  obtain ⟨id, _ | ds, batches, watchPrefixes⟩ := s
  · exact ⟨rfl, .inl rfl⟩
  · rw [checkptLocalGen]
    dsimp only
    split
    · next hsgs =>
      cases sp with
      | none =>
        refine ⟨rfl, .inr ⟨?_, rfl⟩⟩
        rw [spaces, if_pos hsgs]
        exact mem_singleton_self _
      | some gid => exact ⟨rfl, .inl rfl⟩
    · next hsgs =>
      obtain ⟨hdata, hall⟩ := checkptSgs_spec sgs ds
      cases sp with
      | none =>
        have hsame : genInfo ⟨id, some (checkptSgs sgs ds).2, batches,
          watchPrefixes⟩ none = ds.data :=
          hdata
        rw [hsame]
        exact ⟨rfl, .inl rfl⟩
      | some gid =>
        obtain ⟨hgen, hck⟩ := hall (sgOID gid)
        refine ⟨hgen, hck.imp_right ?_⟩
        rintro ⟨gid', hmem, heq, hck⟩
        obtain rfl := sgOID_injective heq
        rw [spaces, if_neg hsgs]
        exact ⟨mem_map_of_mem hmem, hck⟩

theorem lookup_foldl_insert_sgOID (f : GroupId → GenVector) (gid : GroupId) (sgs : List GroupId)
    (k : Knowledge) :
    (sgs.foldl (fun k g ↦ k.insert (sgOID g) (f g)) k).lookup (sgOID gid)
      = if gid ∈ sgs then some (f gid) else k.lookup (sgOID gid) := by
  induction sgs generalizing k with
  | nil => rfl
  | cons g sgs ih =>
    rw [foldl_cons, ih, lookup_insert_eq_ite]
    split
    · next hmem => rw [if_pos (mem_cons_of_mem _ hmem)]
    · next hmem =>
      by_cases hg : gid = g
      · subst hg
        rw [if_pos rfl, if_pos mem_cons_self]
      · rw [if_neg (fun h ↦ hg (sgOID_injective h)), if_neg (not_mem_cons_of_ne_of_not_mem hg hmem)]

theorem mem_reports {s : SyncService}
    (h : s.copyDbGenInfo sgs = .ok (respVecs, gen)) {e : GenEvent}
    (he : e ∈ Lifetime.reports s.id respVecs gen sgs) :
    ∃ sp, e = .report sp (s.genInfo sp).checkptGen := by
  obtain ⟨id, _ | ds, batches, watchPrefixes⟩ := s
  · cases h
  · rw [copyDbGenInfo] at h
    dsimp only at h
    rw [Lifetime.reports] at he
    by_cases hsgs : sgs = []
    · rw [if_pos hsgs] at h he
      obtain ⟨-, rfl⟩ := Prod.mk.inj (Except.ok.inj h)
      exact ⟨none, mem_singleton.mp he⟩
    · rw [if_neg hsgs] at h he
      obtain ⟨rfl, -⟩ := Prod.mk.inj (Except.ok.inj h)
      obtain ⟨gid, hgid, rfl⟩ := mem_map.mp he
      refine ⟨some gid, ?_⟩
      rw [lookup_foldl_insert_sgOID _ gid sgs ∅, if_pos hgid]
      simp only [GenEvent.report.injEq, true_and, map_some, getD_some,
        GenVector.get, lookup_insert, genInfo, getOrCreateSyncStateInternal]
      cases ds.sgs.lookup (sgOID gid) <;> rfl

end SyncService

/-! ## What a restart recovers -/

theorem foldl_last (pfx : ByteString) (id : DevId) (l : List (Sigma fun _ : LogKey ↦ LocalLogRec))
    (acc : Option (ℕ × LocalLogRec)) :
    let r := l.foldl (fun (last : Option (ℕ × LocalLogRec)) e ↦
      if e.1.pfx = pfx ∧ e.1.id = id ∧ ∀ l ∈ last, l.1 < e.1.gen then some (e.1.gen, e.2)
      else last) acc
    (∀ a ∈ acc, ∃ b ∈ r, a.1 ≤ b.1) ∧
      (∀ e ∈ l, e.1.pfx = pfx → e.1.id = id → ∃ b ∈ r, e.1.gen ≤ b.1) ∧
      ∀ b ∈ r, b ∈ acc ∨ ∃ e ∈ l, e.1.pfx = pfx ∧ e.1.id = id ∧ b = (e.1.gen, e.2) := by
  induction l generalizing acc with
  | nil => exact ⟨fun a ha ↦ ⟨a, ha, le_rfl⟩, fun e he ↦ (by cases he), fun b hb ↦ .inl hb⟩
  | cons e l ih =>
    rw [foldl_cons]
    split
    · next hpick =>
      obtain ⟨hacc, hl, hr⟩ := ih (some (e.1.gen, e.2))
      obtain ⟨b₀, hb₀, hle₀⟩ := hacc _ rfl
      refine ⟨fun a ha ↦ ⟨b₀, hb₀, (hpick.2.2 a ha).le.trans hle₀⟩, fun e' he' hp hi ↦ ?_,
        fun b hb ↦ ?_⟩
      · rcases mem_cons.mp he' with rfl | he'
        · exact ⟨b₀, hb₀, hle₀⟩
        · exact hl e' he' hp hi
      · rcases hr b hb with hb | ⟨e', he', hp, hi, rfl⟩
        · cases hb
          exact .inr ⟨e, mem_cons_self, hpick.1, hpick.2.1, rfl⟩
        · exact .inr ⟨e', mem_cons_of_mem _ he', hp, hi, rfl⟩
    · next hpick =>
      obtain ⟨hacc, hl, hr⟩ := ih acc
      refine ⟨hacc, fun e' he' hp hi ↦ ?_, fun b hb ↦ ?_⟩
      · rcases mem_cons.mp he' with rfl | he'
        · -- a record of the log that is passed over is not later than the one kept
          obtain ⟨a, ha, hle⟩ : ∃ a ∈ acc, e'.1.gen ≤ a.1 := by
            by_contra hno
            push Not at hno
            exact hpick ⟨hp, hi, hno⟩
          obtain ⟨b, hb, hab⟩ := hacc a ha
          exact ⟨b, hb, hle.trans hab⟩
        · exact hl e' he' hp hi
      · rcases hr b hb with hb | ⟨e', he', hp, hi, rfl⟩
        · exact .inl hb
        · exact .inr ⟨e', mem_cons_of_mem _ he', hp, hi, rfl⟩

variable {sp : LogSpace} {svc : SyncService} {st : Store} {id : DevId}

namespace Store

/-- A local record of the log with the given generation is on disk. -/
def HasLocal (st : Store) (id : DevId) (sp : LogSpace) (g : ℕ) : Prop :=
  ∃ rec, AList.lookup (logRecKey sp.pfx id g) st.log = some rec

/-- Log records are stored under their own generation. -/
def Keyed (st : Store) : Prop :=
  ∀ key rec, AList.lookup key st.log = some rec → rec.metadata.gen = key.gen

/-- The generation of the last local record of the log, from which the counter is recovered. -/
def lastGen (st : Store) (id : DevId) (sp : LogSpace) : ℕ :=
  ((st.lastLogRec sp.pfx id).map (·.metadata.gen)).getD 0

theorem le_lastGen {g : ℕ} (hk : st.Keyed)
    (h : st.HasLocal id sp g) : g ≤ st.lastGen id sp := by
  obtain ⟨rec, hrec⟩ := h
  obtain ⟨-, hall, hfrom⟩ := foldl_last sp.pfx id st.log.entries none
  obtain ⟨b, hb, hle⟩ := hall _ (mem_entries_iff.mpr hrec) rfl rfl
  obtain ⟨e, he, -, -, rfl⟩ := (hfrom b hb).resolve_left (fun h ↦ by cases h)
  have hgen := hk e.1 e.2 (mem_entries_iff.mp he)
  rw [lastGen, lastLogRec, mem_def.mp hb, map_some, map_some, getD_some, hgen]
  exact hle

theorem lastGen_spec (hk : st.Keyed) :
    st.lastGen id sp = 0 ∨ st.HasLocal id sp (st.lastGen id sp) := by
  obtain ⟨-, -, hfrom⟩ := foldl_last sp.pfx id st.log.entries none
  rw [lastGen, lastLogRec]
  cases hr : st.log.entries.foldl (fun (last : Option (ℕ × LocalLogRec)) e ↦
    if e.1.pfx = sp.pfx ∧ e.1.id = id ∧ ∀ l ∈ last, l.1 < e.1.gen then some (e.1.gen, e.2)
    else last) none with
  | none => exact .inl rfl
  | some b =>
    obtain ⟨e, he, hp, hi, rfl⟩ := (hfrom b hr).resolve_left (fun h ↦ by cases h)
    have hlookup := mem_entries_iff.mp he
    refine .inr ⟨e.2, ?_⟩
    rw [map_some, map_some, getD_some, hk e.1 e.2 hlookup, logRecKey, ← hp, ← hi]
    exact hlookup

end Store

/-- The counters that the syncgroup scan of `initSync` recovers. -/
theorem lookup_initSyncgroups {sggenvecs : Knowledge} (gid : GroupId)
    {sgs : List (GroupId × List Prefix)}
    {acc out : Table Prefix (List GroupId) × Table Oid LocalGenInfo}
    (h : initSyncgroups st id sggenvecs sgs acc = .ok out) :
    (gid ∈ sgs.map Prod.fst → ∃ pos, out.2.lookup (sgOID gid)
        = some ⟨st.lastGen id (some gid) + 1, pos, st.lastGen id (some gid)⟩) ∧
      (gid ∉ sgs.map Prod.fst → out.2.lookup (sgOID gid) = acc.2.lookup (sgOID gid)) := by
  induction sgs generalizing acc out with
  | nil =>
    cases h
    exact ⟨fun h ↦ by simp at h, fun _ ↦ rfl⟩
  | cons sg sgs ih =>
    obtain ⟨g, pfxs⟩ := sg
    obtain ⟨watch, infos⟩ := acc
    rw [initSyncgroups] at h
    cases hst : st.sgIds.lookup g with
    | none => rw [hst] at h; cases h
    | some state =>
      rw [hst] at h
      obtain ⟨hin, hout⟩ := ih h
      rw [lookup_insert_eq_ite] at hout
      rw [map_cons]
      constructor
      · intro hmem
        by_cases hlater : gid ∈ sgs.map Prod.fst
        · exact hin hlater
        · obtain rfl : gid = g := (mem_cons.mp hmem).resolve_right hlater
          rw [hout hlater, if_pos rfl]
          exact ⟨_, rfl⟩
      · intro hmem
        rw [mem_cons, not_or] at hmem
        obtain ⟨hne, hlater⟩ := hmem
        rw [hout hlater, if_neg (fun h ↦ hne (sgOID_injective h))]

/-- A log of a known syncgroup continues after its last record on disk; any other log starts
anew. -/
theorem genInfo_initSync {sgs : List (GroupId × List Prefix)}
    (h : initSync st id sgs = .ok svc) (sp : LogSpace) :
    svc.id = id ∧
      (Lifetime.knows sgs sp = true → (svc.genInfo sp).gen = st.lastGen id sp + 1 ∧
        (svc.genInfo sp).checkptGen = st.lastGen id sp) ∧
      (Lifetime.knows sgs sp = false → (svc.genInfo sp).gen = 1 ∧
        (svc.genInfo sp).checkptGen = 0) := by
  rw [initSync] at h
  cases hi : initSyncgroups st id (st.dbss.getD ⟨∅, ∅, false⟩).sgGenVecs sgs (∅, ∅) with
  | error e => rw [hi] at h; cases h
  | ok out =>
    obtain ⟨watch, infos⟩ := out
    rw [hi] at h
    dsimp only at h
    split at h
    · next hsgs =>
      obtain rfl := Except.ok.inj h
      subst hsgs
      cases sp with
      | none => exact ⟨rfl, fun h ↦ (by cases h), fun _ ↦ ⟨rfl, rfl⟩⟩
      | some gid => exact ⟨rfl, fun h ↦ (by simp [Lifetime.knows] at h), fun _ ↦ ⟨rfl, rfl⟩⟩
    · next hsgs =>
      obtain rfl := Except.ok.inj h
      refine ⟨rfl, ?_⟩
      cases sp with
      | none =>
        refine ⟨fun _ ↦ ⟨rfl, rfl⟩, fun hk ↦ ?_⟩
        rw [Lifetime.knows, Bool.not_eq_false', List.isEmpty_iff] at hk
        exact absurd hk hsgs
      | some gid =>
        obtain ⟨hin, hout⟩ := lookup_initSyncgroups gid hi
        rw [Lifetime.knows]
        simp only [genInfo, getOrCreateSyncStateInternal, getD_some]
        constructor
        · intro hk
          obtain ⟨pos, hpos⟩ := hin (of_decide_eq_true hk)
          rw [hpos]
          exact ⟨rfl, rfl⟩
        · intro hk
          rw [hout (of_decide_eq_false hk)]
          exact ⟨rfl, rfl⟩

/-! ## The invariant -/

namespace Lifetime

/-- The generation `r` of the log will not be handed out again: the counter is above it, and so is
the last record on disk unless `r` is zero. -/
def Backed (l : Lifetime) (sp : LogSpace) (r : ℕ) : Prop :=
  r < (l.svc.genInfo sp).gen ∧ (r = 0 ∨ ∃ g, r ≤ g ∧ l.st.HasLocal l.svc.id sp g)

/-- What every step keeps. -/
structure Sound (l : Lifetime) : Prop where
  keyed : l.st.Keyed
  known : ∀ sp g, l.st.HasLocal l.svc.id sp g → knows l.sgs sp = true
  checkpt : ∀ sp, l.Backed sp (l.svc.genInfo sp).checkptGen
  reported : ∀ sp r, .report sp r ∈ l.history → l.Backed sp r
  fresh : NotReissued l.history

theorem sound_start (id : DevId) : (start id).Sound where
  keyed := fun key rec h ↦ by cases h
  known := fun sp g ⟨rec, h⟩ ↦ by cases h
  checkpt := fun sp ↦ by cases sp <;> exact ⟨Nat.one_pos, .inl rfl⟩
  reported := fun sp r h ↦ by cases h
  fresh := List.Pairwise.nil

variable {l l' : Lifetime}

theorem Backed.mono {r : ℕ} (h : l.Backed sp r)
    (hid : l'.svc.id = l.svc.id) (hgen : (l.svc.genInfo sp).gen ≤ (l'.svc.genInfo sp).gen)
    (hlog : ∀ g, l.st.HasLocal l.svc.id sp g → l'.st.HasLocal l.svc.id sp g) : l'.Backed sp r := by
  obtain ⟨hlt, hstored⟩ := h
  refine ⟨hlt.trans_le hgen, hstored.imp_right ?_⟩
  rintro ⟨g, hle, hg⟩
  exact ⟨g, hle, hid ▸ hlog g hg⟩

theorem Sound.of_svc (hl : l.Sound) (txs : List OpenTx)
    (hid : svc.id = l.svc.id) (hgen : ∀ sp, (l.svc.genInfo sp).gen ≤ (svc.genInfo sp).gen)
    (hck : ∀ sp, (svc.genInfo sp).checkptGen = (l.svc.genInfo sp).checkptGen) :
    Sound { l with svc := svc, txs := txs } := by
  have hmono : ∀ {sp r}, l.Backed sp r → Backed { l with svc := svc, txs := txs } sp r :=
    fun hb ↦ hb.mono hid (hgen _) fun g hg ↦ hg
  refine ⟨hl.keyed, ?_, fun sp ↦ ?_, fun sp r h ↦ hmono (hl.reported sp r h), hl.fresh⟩
  · rw [hid]
    exact hl.known
  · rw [hck]
    exact hmono (hl.checkpt sp)

theorem Sound.reserve (hl : l.Sound) (sp : LogSpace) (recs : List LocalLogRec)
    (btid : BatchId) (count : ℕ) (txs : List OpenTx) :
    Sound ⟨(l.svc.reserveGenAndPosInDbLog sp.oid count).2, l.st, txs, l.sgs, l.history ++
      (stampBatch btid count (l.svc.reserveGenAndPosInDbLog sp.oid count).1.1
        (l.svc.reserveGenAndPosInDbLog sp.oid count).1.2 recs).map
          fun rec ↦ .create sp rec.metadata.gen⟩ := by
  have hinfo := fun sp' ↦ l.svc.genInfo_reserve sp sp' count count
  have hs := hl.of_svc txs (l.svc.id_reserve sp.oid count count)
    (fun sp' ↦ (Nat.le_add_right _ _).trans_eq (hinfo sp').2.2.symm) fun sp' ↦ (hinfo sp').2.1
  refine ⟨hs.keyed, hs.known, hs.checkpt, fun sp' r h ↦ ?_, ?_⟩
  · rcases mem_append.mp h with h | h
    · exact hs.reported sp' r h
    · obtain ⟨rec, -, hrec⟩ := mem_map.mp h
      cases hrec
  · refine pairwise_append.mpr ⟨hl.fresh, ?_, fun e he e' he' ↦ ?_⟩
    · refine pairwise_map.mpr (pairwise_of_forall fun rec rec' sp' r g h ↦ ?_)
      cases h
    · -- a new record is at or above the counter, which is above all that was reported
      rintro sp' r g rfl rfl
      obtain ⟨rec, hrec, heq⟩ := mem_map.mp he'
      obtain ⟨rfl, rfl⟩ := GenEvent.create.inj heq
      obtain ⟨rec₀, -, i, -, rfl⟩ := mem_stampBatch hrec
      have hlt := (hl.reported sp r he).1
      rw [← (hinfo sp).1] at hlt
      exact hlt.trans_le (Nat.le_add_right _ _)

theorem lookup_log_commitTx (st : Store) (tx : OpenTx) (key : LogKey) :
    lookup key (commitTx st tx).log = st.log.lookup key ∨
      ∃ r ∈ tx.recs, key = logRecKey r.1.pfx r.2.metadata.id r.2.metadata.gen ∧
        lookup key (commitTx st tx).log = some r.2 := by
  have hfold : ∀ (recs : List (LogSpace × LocalLogRec)) (st : Store),
      lookup key (recs.foldl (fun st r ↦ st.putLogRec r.1.pfx r.2) st).log = st.log.lookup key ∨
        ∃ r ∈ recs, key = logRecKey r.1.pfx r.2.metadata.id r.2.metadata.gen ∧
          lookup key (recs.foldl (fun st r ↦ st.putLogRec r.1.pfx r.2) st).log = some r.2 := by
    intro recs
    induction recs with
    | nil => intro st; exact .inl rfl
    | cons r recs ih =>
      intro st
      rw [foldl_cons]
      rcases ih (st.putLogRec r.1.pfx r.2) with hsame | ⟨r', hr', hkey, hlook⟩
      · rw [hsame, Store.putLogRec, lookup_insert_eq_ite]
        split
        · next hkey => exact .inr ⟨r, mem_cons_self, hkey, rfl⟩
        · exact .inl rfl
      · exact .inr ⟨r', mem_cons_of_mem _ hr', hkey, hlook⟩
  exact hfold tx.recs st

theorem pfx_injective : Function.Injective LogSpace.pfx := by
  have hne : ∀ gid, logDataPrefix ≠ sgOID gid := fun gid h ↦ by
    have := congrArg head? h
    cases this
  intro sp sp' h
  cases sp with
  | none =>
    cases sp' with
    | none => rfl
    | some gid => exact absurd h (hne gid)
  | some gid =>
    cases sp' with
    | none => exact absurd h.symm (hne gid)
    | some gid' => exact congrArg some (sgOID_injective h)

theorem knows_append {sgs new : List (GroupId × List Prefix)}
    (h : knows sgs sp = true) : knows (sgs ++ new) sp = true := by
  cases sp with
  | none => cases sgs <;> simp_all [knows]
  | some gid =>
    simp only [knows, decide_eq_true_eq, map_append, mem_append] at h ⊢
    exact .inl h

theorem Sound.commit (hl : l.Sound) {tx : OpenTx}
    (hknows : ∀ r ∈ tx.recs, knows (l.sgs ++ tx.sgs) r.1 = true) (txs : List OpenTx) :
    Sound ⟨l.svc, commitTx l.st tx, txs, l.sgs ++ tx.sgs, l.history⟩ := by
  have hlog : ∀ {sp g}, l.st.HasLocal l.svc.id sp g →
    (commitTx l.st tx).HasLocal l.svc.id sp g := by
    rintro sp g ⟨rec, hrec⟩
    rcases lookup_log_commitTx l.st tx (logRecKey sp.pfx l.svc.id g) with h | ⟨r, -, -, h⟩
    · exact ⟨rec, h.trans hrec⟩
    · exact ⟨r.2, h⟩
  have hmono : ∀ {sp r}, l.Backed sp r →
      Backed ⟨l.svc, commitTx l.st tx, txs, l.sgs ++ tx.sgs, l.history⟩ sp r :=
    fun hb ↦ hb.mono rfl le_rfl fun g hg ↦ hlog hg
  refine ⟨fun key rec h ↦ ?_, ?_, fun sp ↦ hmono (hl.checkpt sp),
    fun sp r h ↦ hmono (hl.reported sp r h), hl.fresh⟩
  · rcases lookup_log_commitTx l.st tx key with hsame | ⟨r, -, hkey, hr⟩
    · exact hl.keyed key rec (hsame.symm.trans h)
    · obtain rfl := some.inj (hr.symm.trans h)
      rw [hkey]
      rfl
  · rintro sp g ⟨rec, hrec⟩
    rcases lookup_log_commitTx l.st tx (logRecKey sp.pfx l.svc.id g) with
      hsame | ⟨r, hr, hkey, -⟩
    · exact knows_append (hl.known sp g ⟨rec, hsame.symm.trans hrec⟩)
    · obtain rfl := pfx_injective (congrArg LogKey.pfx hkey)
      exact hknows r hr

/-- The condition on a checkpoint: the last generation handed out belongs to a record on disk, or
none has been handed out yet. -/
def CheckptOnDisk (l : Lifetime) : LifeAction → Prop
  | .checkpt sgs => ∀ sp ∈ SyncService.spaces sgs, (l.svc.genInfo sp).gen ≤ 1 ∨
      (AList.lookup (logRecKey sp.pfx l.svc.id ((l.svc.genInfo sp).gen - 1)) l.st.log).isSome = true
  | _ => True

instance (l : Lifetime) : (a : LifeAction) → Decidable (l.CheckptOnDisk a)
  | .checkpt sgs => inferInstanceAs (Decidable (∀ sp ∈ SyncService.spaces sgs, _ ∨ _))
  | .beginTx | .reserve _ _ _ _ _ | .receive _ _ _ | .addSyncgroup _ _ _ | .commit _ | .abort _
  | .initState _ | .reply _ | .restart => .isTrue trivial

theorem Sound.checkptStep (hl : l.Sound)
    (hok : l.CheckptOnDisk (.checkpt sgs)) :
    Sound { l with svc := (l.svc.checkptLocalGen sgs).2 } := by
  have hid : (l.svc.checkptLocalGen sgs).2.id = l.svc.id := by
    obtain ⟨⟨id, _ | ds, batches, watchPrefixes⟩, st, txs, sgs', history⟩ := l
    · rfl
    · rw [checkptLocalGen]
      split_ifs <;> rfl
  have hinfo := fun sp ↦ l.svc.genInfo_checkptLocalGen sgs sp
  have hmono : ∀ {sp r}, l.Backed sp r →
      Backed { l with svc := (l.svc.checkptLocalGen sgs).2 } sp r :=
    fun {sp r} hb ↦ hb.mono hid (hinfo sp).1.ge fun g hg ↦ hg
  refine ⟨hl.keyed, ?_, fun sp ↦ ?_, fun sp r h ↦ hmono (hl.reported sp r h), hl.fresh⟩
  · rw [hid]
    exact hl.known
  · refine hmono ?_
    rcases (hinfo sp).2 with hsame | ⟨hsp, hnew⟩
    · rw [hsame]
      exact hl.checkpt sp
    · rw [hnew]
      have hpos := (hl.checkpt sp).1
      refine ⟨by omega, ?_⟩
      rcases hok sp hsp with hone | hdisk
      · exact .inl (by omega)
      · exact .inr ⟨_, le_rfl, isSome_iff_exists.mp hdisk⟩

theorem Sound.replyStep (hl : l.Sound)
    (h : l.svc.copyDbGenInfo sgs = .ok (respVecs, gen)) :
    Sound { l with history := l.history ++ reports l.svc.id respVecs gen sgs } := by
  refine ⟨hl.keyed, hl.known, hl.checkpt, fun sp r hr ↦ ?_, ?_⟩
  · rcases mem_append.mp hr with hr | hr
    · exact hl.reported sp r hr
    · obtain ⟨sp', heq⟩ := mem_reports h hr
      obtain ⟨rfl, rfl⟩ := GenEvent.report.inj heq
      exact hl.checkpt sp
  · have hnone {e' sp g} (he' : e' ∈ reports l.svc.id respVecs gen sgs) (hc : e' = .create sp g) :
        False := by
      obtain ⟨sp', heq⟩ := mem_reports h he'
      rw [hc] at heq
      cases heq
    refine pairwise_append.mpr ⟨hl.fresh, ?_, fun _ _ _ he' _ _ _ _ hc ↦ (hnone he' hc).elim⟩
    refine List.Pairwise.imp_of_mem ?_ (pairwise_of_forall fun _ _ ↦ trivial)
    exact fun _ he' _ _ _ _ _ hc ↦ (hnone he' hc).elim

/-- A restart sets the counter behind the last record on disk, which covers all that was
reported. -/
theorem Sound.restart (hl : l.Sound)
    (h : initSync l.st l.svc.id l.sgs = .ok svc) : Sound { l with svc := svc, txs := [] } := by
  have hinfo := fun sp ↦ genInfo_initSync h sp
  have hid : svc.id = l.svc.id := (hinfo none).1
  have hbacked : ∀ {sp r}, (r = 0 ∨ ∃ g, r ≤ g ∧ l.st.HasLocal l.svc.id sp g) →
      Backed { l with svc := svc, txs := [] } sp r := by
    intro sp r hr
    refine ⟨?_, ?_⟩
    · rcases hr with rfl | ⟨g, hle, hg⟩
      · cases hk : knows l.sgs sp with
        | true => exact ((hinfo sp).2.1 hk).1 ▸ Nat.succ_pos _
        | false => exact ((hinfo sp).2.2 hk).1 ▸ Nat.one_pos
      · rw [((hinfo sp).2.1 (hl.known sp g hg)).1]
        exact Nat.lt_succ_of_le (hle.trans (Store.le_lastGen hl.keyed hg))
    · rw [hid]
      exact hr
  refine ⟨hl.keyed, ?_, fun sp ↦ hbacked ?_,
    fun sp r hr ↦ hbacked (hl.reported sp r hr).2, hl.fresh⟩
  · rw [hid]
    exact hl.known
  · cases hk : knows l.sgs sp with
    | true =>
      rw [((hinfo sp).2.1 hk).2]
      refine (Store.lastGen_spec hl.keyed).imp_right fun hst ↦ ⟨_, le_rfl, hst⟩
    | false => exact .inl ((hinfo sp).2.2 hk).2

theorem Sound.step {a : LifeAction} (hl : l.Sound) (hok : l.CheckptOnDisk a)
    (h : l.step a = some l') : l'.Sound := by
  cases a with
  | beginTx | abort =>
    cases h
    exact hl.of_svc _ rfl (fun _ ↦ le_rfl) fun _ ↦ rfl
  | reserve i sp recs btid count =>
    rw [Lifetime.step] at h
    split at h
    · cases h
    · split at h <;> cases h
      exact hl.reserve sp recs btid count _
  | receive i sp recs =>
    rw [Lifetime.step] at h
    split at h
    · cases h
    · split at h <;> cases h
      have hinfo := fun sp' ↦ l.svc.genInfo_reserve sp sp' 0 recs.length
      exact hl.of_svc _ (l.svc.id_reserve sp.oid 0 recs.length)
        (fun sp' ↦ (Nat.le_add_right _ _).trans_eq (hinfo sp').2.2.symm) fun sp' ↦ (hinfo sp').2.1
  | addSyncgroup i gid pfxs =>
    rw [Lifetime.step] at h
    split at h
    · cases h
    · split at h <;> cases h
      exact hl.of_svc _ rfl (fun _ ↦ le_rfl) fun _ ↦ rfl
  | commit i =>
    rw [Lifetime.step] at h
    split at h
    · cases h
    · split at h
      · rename_i hknows
        cases h
        exact hl.commit hknows _
      · cases h
  | initState sp =>
    cases h
    have hinfo := fun sp' ↦ l.svc.genInfo_initSyncStateInMem sp.oid sp'
    refine hl.of_svc _ ?_ (fun sp' ↦ ?_) fun sp' ↦ ?_
    · rw [initSyncStateInMem]
      split_ifs
      · rfl
      · split <;> rfl
    · exact (congrArg LocalGenInfo.gen (hinfo sp')).ge
    · exact congrArg LocalGenInfo.checkptGen (hinfo sp')
  | checkpt sgs =>
    cases h
    exact hl.checkptStep hok
  | reply sgs =>
    rw [Lifetime.step] at h
    split at h
    · cases h
    · rename_i respVecs gen hcopy
      cases h
      exact hl.replyStep hcopy
  | restart =>
    rw [Lifetime.step] at h
    split at h
    · cases h
    · rename_i svc hinit
      cases h
      exact hl.restart hinit

end Lifetime

/-- **Reported generations are not reused.** In every run of a device from an empty store, through
any number of transactions, replies, crashes and restarts, in which every checkpoint is cut when the
last generation handed out is on disk, no record gets a generation that an earlier reply covered. -/
theorem reported_generation_never_reissued {id : DevId} {acts : List LifeAction} {l : Lifetime}
    (h : run (guarded Lifetime.CheckptOnDisk Lifetime.step) (Lifetime.start id) acts = some l) :
    NotReissued l.history := by
  have hsound : l.Sound :=
    guarded_invariant (fun _ _ _ hs hok hst ↦ hs.step hok hst) (Lifetime.sound_start id) h
  exact hsound.fresh

/-- The record of a put, before it is stamped. -/
def lonePut : LocalLogRec := initialLogRec 1 [114, 254, 97] [5] false 7

/-- Device 1 adds a syncgroup. -/
def joinActs : List LifeAction :=
  [.beginTx, .addSyncgroup 0 [9] [[114]], .commit 0, .initState none]

/-- A record is committed and reported; after a crash the device goes on behind it. -/
theorem committed_generation_kept : ∃ l,
    run (guarded Lifetime.CheckptOnDisk Lifetime.step) (Lifetime.start 1)
      (joinActs ++ [.beginTx, .reserve 0 none [lonePut] 0 1, .commit 0, .checkpt [], .reply [],
        .restart, .beginTx, .reserve 0 none [lonePut] 0 1]) = some l ∧
    l.history = [.create none 1, .report none 1, .create none 2] ∧ NotReissued l.history := by
  have hany : (run (guarded Lifetime.CheckptOnDisk Lifetime.step) (Lifetime.start 1)
      (joinActs ++ [.beginTx, .reserve 0 none [lonePut] 0 1, .commit 0, .checkpt [], .reply [],
        .restart, .beginTx, .reserve 0 none [lonePut] 0 1])).any
      (fun l ↦ l.history = [.create none 1, .report none 1, .create none 2]) = true := by
    decide +kernel
  obtain ⟨l, hrun, hhist⟩ := exists_run_of_any hany
  exact ⟨l, hrun, of_decide_eq_true hhist, reported_generation_never_reissued hrun⟩

/-- **A reported generation is reused.** A transaction takes generation 1 and aborts; a checkpoint
then covers generation 1 and a reply reports it. After a crash the counter is recovered from the
empty log, and the next record gets generation 1. -/
theorem aborted_generation_reissued : ∃ l,
    run Lifetime.step (Lifetime.start 1)
      (joinActs ++ [.beginTx, .reserve 0 none [lonePut] 0 1, .abort 0, .checkpt [], .reply [],
        .restart, .beginTx, .reserve 0 none [lonePut] 0 1, .commit 0]) = some l ∧
    (AList.lookup (logRecKey logDataPrefix 1 1) l.st.log).isSome = true ∧
    ¬NotReissued l.history := by
  have hany : (run Lifetime.step (Lifetime.start 1)
      (joinActs ++ [.beginTx, .reserve 0 none [lonePut] 0 1, .abort 0, .checkpt [], .reply [],
        .restart, .beginTx, .reserve 0 none [lonePut] 0 1, .commit 0])).any
      (fun l ↦ (l.st.log.lookup (logRecKey logDataPrefix 1 1)).isSome ∧
        l.history = [.create none 1, .report none 1, .create none 1]) = true := by
    decide +kernel
  obtain ⟨l, hrun, hl⟩ := exists_run_of_any hany
  obtain ⟨hlog, hhist⟩ := of_decide_eq_true hl
  refine ⟨l, hrun, hlog, fun hno ↦ ?_⟩
  rw [hhist, NotReissued, List.pairwise_cons, List.pairwise_cons] at hno
  exact lt_irrefl 1 (hno.2.1 _ (List.mem_singleton_self _) none 1 1 rfl rfl)

end Vanadium.Vsync
