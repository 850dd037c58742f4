import Vanadium.Foundations.Transition
import Vanadium.Vsync.Initiator

/-!
# Checkpoints and open transactions

The watcher and the initiator take generations for local records from one counter, and each of them
commits its records later, in a transaction of its own. The watcher's checkpoint freezes the last
generation *handed out*, which is what the responder then reports to peers. This file runs the three
threads of one database against each other, with the state lock held only around each counter
update, and asks whether a reported generation covers records that are not in the log yet.

It does: a checkpoint cut while the initiator holds a record makes the responder report that record
as known before it is stored (`checkpt_while_resolving_overreports`). When no checkpoint is cut in
such a moment, the reported part of the local log is complete and final
(`reported_local_log_final`).
-/

namespace Vanadium.Vsync

open Foundations Program Transition List Option SyncService
open EStateM (Result)

/-! ## The step system -/

/-- Where the watcher stands in `processDatabase`: between two batches, with its transaction open on
stamped records, or past the commit and before the checkpoint. -/
inductive WatchPhase where
  | idle
  | holding (recs : List LocalLogRec)
  | processed
  deriving DecidableEq

/-- One database with its watcher and its initiator. `resolving` are the local records that the
initiator's open transaction holds. -/
structure DbState where
  svc : SyncService
  st : Store
  watch : WatchPhase
  resolving : List LocalLogRec
  deriving DecidableEq

/-- What the threads can do next. The responder only reads. -/
inductive DbAction where
  | watchBatch (batch : List LocalLogRec) (btid : BatchId) (totalCount : ℕ)
  | watchStateChange (isPaused : Bool)
  | watchCommit
  | watchAbort
  | checkpt
  | resolveLink (oid : Oid) (vers par : Version) (btid : BatchId) (batchCount : ℕ)
  | resolveApp (recs : List LocalLogRec) (btid : BatchId) (count : ℕ)
  | resolveCommit
  | resolveAbort
  deriving DecidableEq

/-- The log writes of a transaction. -/
def Store.putLogRecs (st : Store) (recs : List LocalLogRec) : Store :=
  recs.foldl (·.putLogRec logDataPrefix) st

variable {svc : SyncService} {st : Store}

namespace DbState

/-- A database whose threads have just been started. -/
def start (svc : SyncService) (st : Store) : DbState := ⟨svc, st, .idle, []⟩

/-- One step of one thread. -/
def step (o : Oracle) (d : DbState) : DbAction → Option DbState
  | .watchBatch batch btid totalCount =>
    match d.watch with
    | .idle =>
      let r := (d.svc.initSyncStateInMem []).reserveGenAndPosInDbLog [] batch.length
      some { d with
        svc := r.2
        watch := .holding (stampBatch btid totalCount r.1.1 r.1.2 batch) }
    | _ => none
  | .watchStateChange isPaused =>
    match d.watch with
    | .idle => some { d with svc := d.svc.updateInMemoryPauseSt isPaused, watch := .processed }
    | _ => none
  | .watchCommit =>
    match d.watch with
    | .holding recs => some { d with st := d.st.putLogRecs recs, watch := .processed }
    | _ => none
  | .watchAbort =>
    match d.watch with
    | .holding _ => some { d with watch := .idle }
    | _ => none
  | .checkpt =>
    match d.watch with
    | .processed => some { d with
        svc := if d.svc.isDbSyncable then (d.svc.checkptLocalGen []).2 else d.svc
        watch := .idle }
    | _ => none
  | .resolveLink oid vers par btid batchCount =>
    match createLocalLinkLogRec o false oid vers par btid batchCount (Session.start d.svc d.st) with
    | .ok rec s => some { d with svc := s.svc, resolving := d.resolving ++ [rec] }
    | .error _ _ => none
  | .resolveApp recs btid count =>
    -- `resolveViaApp` reserves one generation for each resolution, not all of which need a record
    if recs.length ≤ count then
      let r := d.svc.reserveGenAndPosInDbLog [] count
      some { d with
        svc := r.2
        resolving := d.resolving ++ stampBatch btid count r.1.1 r.1.2 recs }
    else none
  | .resolveCommit => some { d with st := d.st.putLogRecs d.resolving, resolving := [] }
  | .resolveAbort => some { d with resolving := [] }

/-! ## What a step can do -/

/-- The next generation to hand out. -/
def gen (d : DbState) : ℕ := d.svc.getOrCreateSyncStateInternal.data.gen

/-- The generation reported to peers. -/
def checkptGen (d : DbState) : ℕ := d.svc.getOrCreateSyncStateInternal.data.checkptGen

/-- The records of the open transactions. -/
def held (d : DbState) : List LocalLogRec :=
  d.resolving ++ match d.watch with
    | .holding recs => recs
    | _ => []

/-- What every step does to counter, open transactions and log: generations are handed out in
order, a new record has a new generation, and only records that were held reach the log. -/
structure Advance (d d' : DbState) : Prop where
  id : d'.svc.id = d.svc.id
  gen : d.gen ≤ d'.gen
  held : ∀ rec ∈ d'.held, rec ∈ d.held ∨ d.gen ≤ rec.metadata.gen
  log : ∀ key, AList.lookup key d'.st.log = AList.lookup key d.st.log ∨
    ∃ rec ∈ d.held, key = logRecKey logDataPrefix rec.metadata.id rec.metadata.gen

variable {recs : List LocalLogRec} {rec : LocalLogRec}

theorem lookup_log_putLogRecs {key : LogKey} :
    AList.lookup key (st.putLogRecs recs).log = st.log.lookup key ∨
      ∃ rec ∈ recs, key = logRecKey logDataPrefix rec.metadata.id rec.metadata.gen := by
  induction recs generalizing st with
  | nil => exact .inl rfl
  | cons rec recs ih =>
    have hrest : AList.lookup key ((st.putLogRec logDataPrefix rec).putLogRecs recs).log
        = AList.lookup key (st.putLogRec logDataPrefix rec).log ∨
        ∃ rec ∈ recs, key = logRecKey logDataPrefix rec.metadata.id rec.metadata.gen := ih
    rcases hrest with hsame | ⟨rec', hrec', hkey⟩
    · by_cases hkey : key = logRecKey logDataPrefix rec.metadata.id rec.metadata.gen
      · exact .inr ⟨rec, mem_cons_self, hkey⟩
      · refine .inl (hsame.trans ?_)
        rw [Store.putLogRec, AList.lookup_insert_ne hkey]
    · exact .inr ⟨rec', mem_cons_of_mem _ hrec', hkey⟩

theorem gen_le_of_mem_stampBatch {btid : BatchId} {count pos : ℕ} {g : ℕ}
    (h : rec ∈ stampBatch btid count g pos recs) :
    g ≤ rec.metadata.gen := by
  obtain ⟨rec₀, -, i, -, rfl⟩ := mem_stampBatch h
  exact Nat.le_add_right g i

section Step

variable {o : Oracle} {d d' : DbState} {a : DbAction}

/-- A step that hands out no generation, and whose records all were held before. -/
theorem Advance.of_held (hid : d'.svc.id = d.svc.id) (hgen : d'.gen = d.gen)
    (hheld : ∀ rec ∈ d'.held, rec ∈ d.held)
    (hlog : ∀ key, AList.lookup key d'.st.log = AList.lookup key d.st.log ∨
      ∃ rec ∈ d.held, key = logRecKey logDataPrefix rec.metadata.id rec.metadata.gen) :
    Advance d d' :=
  ⟨hid, hgen.ge, fun rec hrec ↦ .inl (hheld rec hrec), hlog⟩

/-- The initiator adds records to its transaction. -/
theorem mem_held_append
    (h : rec ∈ held { d with svc := svc, resolving := d.resolving ++ recs }) :
    rec ∈ d.held ∨ rec ∈ recs := by
  rcases mem_append.mp h with h | h
  · exact (mem_append.mp h).imp_left (mem_append_left _)
  · exact .inl (mem_append_right _ h)

/-- **One step, whatever thread takes it.** -/
theorem advance_of_step (h : d.step o a = some d') : Advance d d' := by
  obtain ⟨svc, st, watch, resolving⟩ := d
  cases a with
  | watchBatch batch btid totalCount =>
    cases watch <;> cases h
    refine ⟨rfl, Nat.le_add_right _ _, fun rec hrec ↦ ?_, fun key ↦ .inl rfl⟩
    rcases mem_append.mp hrec with hrec | hrec
    · exact .inl (mem_append_left _ hrec)
    · exact .inr (gen_le_of_mem_stampBatch hrec)
  | watchStateChange isPaused =>
    cases watch <;> cases h
    exact .of_held rfl rfl (fun rec hrec ↦ hrec) fun key ↦ .inl rfl
  | watchCommit =>
    cases watch <;> cases h
    refine .of_held rfl rfl (fun rec hrec ↦ ?_) fun key ↦ ?_
    · exact mem_append_left _ (by simpa [held] using hrec)
    · refine lookup_log_putLogRecs.imp_right ?_
      rintro ⟨rec, hrec, hkey⟩
      exact ⟨rec, mem_append_right _ hrec, hkey⟩
  | watchAbort =>
    cases watch <;> cases h
    refine .of_held rfl rfl (fun rec hrec ↦ ?_) fun key ↦ .inl rfl
    exact mem_append_left _ (by simpa [held] using hrec)
  | checkpt =>
    cases watch <;> cases h
    have hsvc : ∀ s : SyncService, (s.checkptLocalGen []).2.id = s.id ∧
        (s.checkptLocalGen []).2.getOrCreateSyncStateInternal.data.gen
          = s.getOrCreateSyncStateInternal.data.gen := by
      rintro ⟨id, _ | ds, batches, watchPrefixes⟩ <;> exact ⟨rfl, rfl⟩
    refine .of_held ?_ ?_ (fun rec hrec ↦ by simpa [held] using hrec) fun key ↦ .inl rfl
    · dsimp only
      split_ifs
      exacts [(hsvc svc).1, rfl]
    · dsimp only [gen]
      split_ifs
      exacts [(hsvc svc).2, rfl]
  | resolveLink oid vers par btid batchCount =>
    cases h
    refine ⟨rfl, Nat.le_add_right _ _, fun rec hrec ↦ ?_, fun key ↦ .inl rfl⟩
    refine (mem_held_append hrec).imp_right fun hrec ↦ ?_
    obtain rfl := mem_singleton.mp hrec
    exact le_rfl
  | resolveApp recs btid count =>
    rw [step] at h
    split_ifs at h
    cases h
    exact ⟨rfl, Nat.le_add_right _ _,
      fun rec hrec ↦ (mem_held_append hrec).imp_right gen_le_of_mem_stampBatch, fun key ↦ .inl rfl⟩
  | resolveCommit =>
    cases h
    refine .of_held rfl rfl (fun rec hrec ↦ mem_append_right _ hrec) fun key ↦ ?_
    refine lookup_log_putLogRecs.imp_right ?_
    rintro ⟨rec, hrec, hkey⟩
    exact ⟨rec, mem_append_left _ hrec, hkey⟩
  | resolveAbort =>
    cases h
    exact .of_held rfl rfl (fun rec hrec ↦ mem_append_right _ hrec) fun key ↦ .inl rfl

theorem checkptGen_of_step (h : d.step o a = some d') : d'.checkptGen = d.checkptGen ∨
    (a = .checkpt ∧ d.watch = .processed ∧ d'.checkptGen = d.gen - 1 ∧ d'.held = d.held) := by
  obtain ⟨svc, st, watch, resolving⟩ := d
  cases a with
  | checkpt =>
    cases watch <;> cases h
    obtain ⟨id, _ | ds, batches, watchPrefixes⟩ := svc
    · exact .inl rfl
    · by_cases hp : ds.isPaused = true
      · refine .inl ?_
        simp [checkptGen, isDbSyncable, getOrCreateSyncStateInternal, hp]
      · refine .inr ⟨rfl, rfl, ?_, rfl⟩
        simp [checkptGen, gen, isDbSyncable, checkptLocalGen, getOrCreateSyncStateInternal, hp]
  | resolveApp recs btid count =>
    rw [step] at h
    split_ifs at h
    cases h
    exact .inl rfl
  | watchBatch | watchStateChange | watchCommit | watchAbort =>
    cases watch <;> cases h
    exact .inl rfl
  | resolveLink | resolveCommit | resolveAbort =>
    cases h
    exact .inl rfl

end Step

/-! ## Generations below a bound -/

/-- Every generation up to `g` has been handed out, and no open transaction holds one. -/
structure Closed (g : ℕ) (d : DbState) : Prop where
  gen : g < d.gen
  held : ∀ rec ∈ d.held, g < rec.metadata.gen

variable {o : Oracle} {d d' : DbState} {a : DbAction} {g n : ℕ}

theorem Closed.step (hd : Closed g d) (h : d.step o a = some d') : Closed g d' := by
  have hadv := advance_of_step h
  refine ⟨hd.gen.trans_le hadv.gen, fun rec hrec ↦ ?_⟩
  rcases hadv.held rec hrec with hold | hnew
  · exact hd.held rec hold
  · exact hd.gen.trans_le hnew

theorem Closed.lookup_log_step (hd : Closed g d) (h : d.step o a = some d') (hn : n ≤ g) :
    d'.st.log.lookup (logRecKey logDataPrefix d.svc.id n)
      = d.st.log.lookup (logRecKey logDataPrefix d.svc.id n) := by
  rcases (advance_of_step h).log (logRecKey logDataPrefix d.svc.id n) with hsame | ⟨rec, hrec, hkey⟩
  · exact hsame
  · have hlt := hd.held rec hrec
    have hgen : n = rec.metadata.gen := congrArg LogKey.gen hkey
    omega

theorem Closed.lookup_log_run {acts : List DbAction} (hd : Closed g d)
    (hrun : run (DbState.step o) d acts = some d') (hn : n ≤ g) :
    d'.st.log.lookup (logRecKey logDataPrefix d.svc.id n)
      = d.st.log.lookup (logRecKey logDataPrefix d.svc.id n) := by
  have hinv : d'.svc.id = d.svc.id ∧ Closed g d' ∧
      d'.st.log.lookup (logRecKey logDataPrefix d.svc.id n)
        = d.st.log.lookup (logRecKey logDataPrefix d.svc.id n) := by
    refine run_invariant (I := fun e ↦ e.svc.id = d.svc.id ∧ Closed g e ∧
      e.st.log.lookup (logRecKey logDataPrefix d.svc.id n)
        = d.st.log.lookup (logRecKey logDataPrefix d.svc.id n)) ?_ ⟨rfl, hd, rfl⟩ hrun
    rintro e b e' ⟨hid, he, hlog⟩ hstep
    refine ⟨(advance_of_step hstep).id.trans hid, he.step hstep, ?_⟩
    rw [← hid] at hlog ⊢
    rw [he.lookup_log_step hstep hn, hlog]
  exact hinv.2.2

/-! ## Checkpoints outside conflict resolution -/

/-- The condition on a step: no checkpoint is cut while the initiator's transaction holds a
record. -/
def CalmCheckpt (d : DbState) (a : DbAction) : Prop := a = .checkpt → d.resolving = []

instance : ∀ d a, Decidable (CalmCheckpt d a) := fun d a ↦
  inferInstanceAs (Decidable (a = .checkpt → d.resolving = []))

theorem closed_checkptGen_step (hd : Closed d.checkptGen d) (hcalm : CalmCheckpt d a)
    (h : d.step o a = some d') : Closed d'.checkptGen d' := by
  have hkeep := hd.step h
  rcases checkptGen_of_step h with hsame | ⟨rfl, hwatch, hck, hheld⟩
  · rwa [hsame]
  · -- at the checkpoint neither transaction is open
    have hnone : d'.held = [] := by rw [hheld, held, hcalm rfl, hwatch]; rfl
    have hgen := (advance_of_step h).gen
    have hpos := hd.gen
    refine ⟨by omega, fun rec hrec ↦ ?_⟩
    rw [hnone] at hrec
    cases hrec

end DbState

theorem closed_start {id : DevId} {sgs : List (GroupId × List Prefix)}
    (h : initSync st id sgs = .ok svc) :
    DbState.Closed (DbState.start svc st).checkptGen (DbState.start svc st) := by
  refine ⟨?_, fun rec hrec ↦ by cases hrec⟩
  have hgen : svc.getOrCreateSyncStateInternal.data.checkptGen
      < svc.getOrCreateSyncStateInternal.data.gen := by
    rw [initSync] at h
    split at h
    · cases h
    · split_ifs at h
      · obtain rfl := Except.ok.inj h
        exact Nat.one_pos
      · obtain rfl := Except.ok.inj h
        exact Nat.lt_succ_self _
  exact hgen

/-- **The reported local log is complete and final.** Let the threads run from the start of the
service, with checkpoints cut only while the initiator holds no record. When the responder then
reports a local generation, the local records up to it are in the log, and no later step of any
thread adds or changes one. -/
theorem reported_local_log_final {o : Oracle} {st : Store} {id : DevId}
    {sgs : List (GroupId × List Prefix)} {svc : SyncService} (hinit : initSync st id sgs = .ok svc)
    {acts : List DbAction} {d : DbState}
    (hrun : run (guarded DbState.CalmCheckpt (DbState.step o)) (DbState.start svc st) acts = some d)
    {respVecs : Knowledge} {g : ℕ} (hreport : d.svc.copyDbGenInfo [] = .ok (respVecs, g))
    {later : List DbAction} {d' : DbState} (hlater : run (DbState.step o) d later = some d')
    {n : ℕ} (hn : n ≤ g) :
    AList.lookup (logRecKey logDataPrefix d.svc.id n) d'.st.log
      = AList.lookup (logRecKey logDataPrefix d.svc.id n) d.st.log := by
  have hclosed : DbState.Closed d.checkptGen d :=
    guarded_invariant (I := fun e ↦ DbState.Closed e.checkptGen e)
      (fun _ _ _ he hcalm hstep ↦ DbState.closed_checkptGen_step he hcalm hstep)
        (closed_start hinit) hrun
  have hg : g = d.checkptGen := by
    rw [copyDbGenInfo] at hreport
    split at hreport
    · cases hreport
    · rename_i ds hds
      rw [DbState.checkptGen, getOrCreateSyncStateInternal, hds]
      exact (congrArg Prod.snd (Except.ok.inj hreport)).symm
  subst hg
  exact hclosed.lookup_log_run hlater hn

/-- Device 1 as it starts on an empty store, without syncgroups. -/
def freshService : SyncService := ⟨1, none, ∅, ∅⟩

/-- The local record of a put, before it is stamped. -/
def onePut : LocalLogRec := initialLogRec 1 [114, 254, 97] [5] false 7

theorem initSync_fresh : initSync Store.empty 1 [] = .ok freshService := rfl

/-- A batch is reserved, committed and checkpointed between two conflict resolutions. -/
def calmActs : List DbAction :=
  [.resolveLink [1] [2] [3] 0 0, .resolveCommit, .watchBatch [onePut] 0 1, .watchCommit, .checkpt,
    .resolveLink [1] [2] [3] 0 0]

/-- The state in which those steps end. -/
def calmState : DbState :=
  (run (guarded DbState.CalmCheckpt (DbState.step Oracle.counting))
    (DbState.start freshService Store.empty) calmActs).getD (DbState.start freshService Store.empty)

/-- The responder reports generation 2 there; generation 3, committed next, is above it. -/
theorem calm_checkpt_report_final :
    run (guarded DbState.CalmCheckpt (DbState.step Oracle.counting))
        (DbState.start freshService Store.empty) calmActs = some calmState ∧
      calmState.svc.copyDbGenInfo [] = .ok (∅, 2) ∧
      ∀ d', run (DbState.step Oracle.counting) calmState [.resolveCommit] = some d' →
        ∀ n ≤ 2, AList.lookup (logRecKey logDataPrefix calmState.svc.id n) d'.st.log
          = AList.lookup (logRecKey logDataPrefix calmState.svc.id n) calmState.st.log := by
  have hrun : run (guarded DbState.CalmCheckpt (DbState.step Oracle.counting))
      (DbState.start freshService Store.empty) calmActs = some calmState :=
    (Option.getD_of_ne_none (by decide +kernel) _).symm
  have hreport : calmState.svc.copyDbGenInfo [] = .ok (∅, 2) := rfl
  exact ⟨hrun, hreport, fun d' hlater n hn ↦
    reported_local_log_final initSync_fresh hrun hreport hlater hn⟩

/-- The state after a batch was checkpointed while the initiator held generation 1. -/
def overreporting : DbState :=
  (run (DbState.step Oracle.counting) (DbState.start freshService Store.empty)
    [.resolveLink [1] [2] [3] 0 0, .watchBatch [onePut] 0 1, .watchCommit, .checkpt]).getD
    (DbState.start freshService Store.empty)

/-- **A checkpoint during conflict resolution reports too much.** The initiator takes generation 1
for a link record; before its transaction commits, a watcher batch takes generation 2, commits and
is checkpointed. The responder reports generation 2 while generation 1 is not in the log, and the
record is stored afterwards. -/
theorem checkpt_while_resolving_overreports :
    run (DbState.step Oracle.counting) (DbState.start freshService Store.empty)
        [.resolveLink [1] [2] [3] 0 0, .watchBatch [onePut] 0 1, .watchCommit, .checkpt]
      = some overreporting ∧
    overreporting.svc.copyDbGenInfo [] = .ok (∅, 2) ∧
    AList.lookup (logRecKey logDataPrefix 1 1) overreporting.st.log = none ∧
    ∃ d', run (DbState.step Oracle.counting) overreporting [.resolveCommit] = some d' ∧
      (AList.lookup (logRecKey logDataPrefix 1 1) d'.st.log).isSome :=
  ⟨(Option.getD_of_ne_none (by decide +kernel) _).symm, rfl, by decide +kernel, _, rfl,
    by decide +kernel⟩

end Vanadium.Vsync
