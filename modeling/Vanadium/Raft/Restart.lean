import Vanadium.Raft.Recovery

/-!
# Restarts

Any number of calls and restarts, and what a restart reads back.

Steps after which something is lost are left out by a condition on the state before them (`Meets`):
a record that goes to a file which holds a second stream, or which is not the last, is not read
back; a log that is started next to a snapshot must come last; a snapshot from the leader has no log
file and is dropped. A restart that meets the condition reads back the term, the vote and the end of
the log, but it starts at the last snapshot and takes every entry for one of a client. So the state
is the same exactly when this was so before (`restart_survives_iff`).
-/

namespace Vanadium.Raft

open Foundations Transition Persist List Option Dir

variable {ι : Type}

namespace FsPersist

variable {s : FsPersist ι} {i : Index} {t : Term}

/-! ## When a record can be read back -/

/-- The current log file is the last, and every file that is read holds one stream. -/
def Writable (s : FsPersist ι) : Prop :=
  (∀ f ∈ s.dir.logs.keys, f ≤ s.lf) ∧
    ∀ f ∈ s.dir.logs.keys, s.dir.firstLog ≤ f → (s.dir.streams f).length = 1

instance (s : FsPersist ι) : Decidable s.Writable :=
  inferInstanceAs (Decidable (_ ∧ _))

/-- How the server calls its persistent state. Entries have consecutive indices, and a snapshot is
taken at an applied entry, not before the last snapshot. -/
def Called (s : FsPersist ι) : Op ι → Prop
  | .appendToLog _ prevIndex entries =>
    entries.map LogEntry.index = List.range' (prevIndex + 1) entries.length
  | .takeSnapshot t i => 0 < i ∧ s.p.snapPlace.2 ≤ i ∧ ∀ e ∈ s.p.lookup i, e.term = t
  | _ => True

/-- What is written can be read back. -/
def Meets (s : FsPersist ι) : Op ι → Prop
  | .setCurrentTerm _ => s.Writable
  | .incCurrentTerm => s.Writable
  | .setVotedFor vf => vf ≠ s.p.votedFor → s.Writable
  | .setCurrentTermAndVotedFor _ _ => s.Writable
  | .appendToLog _ _ entries => ∀ e ∈ entries,
    (s.p.lookup e.index).map LogEntry.term ≠ some e.term →
      s.Writable ∧ s.p.snapPlace.2 < e.index
  | .takeSnapshot t i =>
    (∀ f ∈ s.dir.logs.keys, f < termIndexToFileName t i) ∧ t < 2 ^ 63 ∧ i < 2 ^ 63
  | .snapshotFromLeader _ _ => False
  | .restart =>
    ∀ f ∈ s.dir.logs.keys, f ≤ termIndexToFileName s.p.lastTerm s.p.lastIndex

instance [DecidableEq ι] (s : FsPersist ι) (op : Op ι) : Decidable (s.Called op ∧ s.Meets op) := by
  cases op <;> unfold Called Meets <;> infer_instance

/-! ## The invariant -/

/-- What the files hold mirrors the state in memory. -/
structure Inv (s : FsPersist ι) : Prop where
  log : s.p.LogInv
  mirrors : Mirrors s.p s.dir.read
  lf : s.lf ∈ s.dir.logs.keys
  first : s.dir.firstLog ∈ s.dir.logs.keys
  streams : ∀ f ∈ s.dir.logs.keys, s.dir.streams f ≠ []

theorem inv_empty : (openPersist (empty : Dir ι)).Inv where
  log := logInv_fresh
  mirrors := ⟨rfl, rfl, rfl, rfl, rfl, rfl, fun i ↦ by split <;> rfl⟩
  lf := by exact mem_singleton.mpr rfl
  first := by exact mem_singleton.mpr rfl
  streams := fun f hf ↦ by
    rw [mem_singleton.mp hf]
    exact cons_ne_nil _ _

/-! ## Writing a record -/

theorem streams_write (r : Record ι) (f : FileName) :
    ((s.write r).dir.streams f) =
      if f = s.lf then (s.dir.streams f).dropLast ++ [(s.dir.streams f).getLastD [] ++ [r]]
      else s.dir.streams f := by
  rw [streams, write, encode, Table.lookup_insert_eq_ite]
  split
  · next h => rw [h, getD_some]
  · rfl

theorem Inv.write (h : s.Inv) (hw : s.Writable) {p : Persist ι} {r : Record ι} (hlog : p.LogInv)
    (hm : Mirrors p (s.dir.read.replay r)) : ({ s with p := p }.write r).Inv where
  log := hlog
  mirrors := by
    change Mirrors p (s.dir.encode s.lf r).read
    rw [read_encode h.first h.lf hw.1 hw.2]
    exact hm
  lf := (mem_keys_encode h.lf).mpr h.lf
  first := by
    change (s.dir.encode s.lf r).firstLog ∈ (s.dir.encode s.lf r).logs.keys
    rw [firstLog_congr (latestSnap_encode h.lf r)]
    exact (mem_keys_encode h.lf).mpr h.first
  streams := fun f hf ↦ by
    rw [streams_write]
    split
    · simp
    · exact h.streams f ((mem_keys_encode h.lf).mp hf)

theorem Writable.write (hw : s.Writable) (h : s.Inv) (p : Persist ι) (r : Record ι) :
    ({ s with p := p }.write r).Writable := by
  have hmem : ∀ f, f ∈ ({ s with p := p }.write r).dir.logs.keys → f ∈ s.dir.logs.keys :=
    fun f ↦ (mem_keys_encode h.lf).mp
  refine ⟨fun f hf ↦ hw.1 f (hmem f hf), fun f hf hle ↦ ?_⟩
  change (s.dir.encode s.lf r).firstLog ≤ f at hle
  rw [firstLog_congr (latestSnap_encode h.lf r)] at hle
  rw [streams_write]
  have hone := hw.2 f (hmem f hf) hle
  split
  · rw [length_append, length_dropLast]
    change (s.dir.streams f).length - 1 + 1 = 1
    rw [hone]
  · exact hone

theorem Inv.syncLog (h : s.Inv) (hw : s.Writable) (ct : Term) (vf : Option ι) :
    (s.syncLog (s.p.setCurrentTermAndVotedFor ct vf)).Inv :=
  h.write hw (h.log.setTerm ct vf) (h.mirrors.control ct vf)

/-! ## Appending entries -/

theorem Inv.appendEntries_of_writable {entries : List LogEntry} {s : FsPersist ι}
    (h : s.Inv) (hw : s.Writable) (hsnap : s.p.snapPlace.2 < i) (hi : i ≤ s.p.lastIndex + 1)
    (hindex : entries.map LogEntry.index = range' i entries.length) :
    (s.appendEntries i entries).Inv := by
  induction entries generalizing i s with
  | nil => exact h
  | cons e entries ih =>
    obtain ⟨he, hrest⟩ := cons.inj hindex
    subst he
    unfold appendEntries
    split
    · next hsame =>
      have hle := (h.log.present e.index hsnap).mp (isSome_map.symm.trans (by rw [hsame]; rfl))
      exact ih h hw (hsnap.trans (Nat.lt_succ_self _)) (Nat.succ_le_succ hle) hrest
    · next hother =>
      obtain ⟨hlog, hm⟩ := h.mirrors.addEntry h.log hsnap hi hother
      obtain ⟨⟨t, hadd⟩, -⟩ := addToLogTail_spec
        (fun k hk ↦ h.log.present k (hsnap.trans_le hk)) hother
      have hplace : (s.addEntry e).p.snapPlace = s.p.snapPlace := by
        change (s.p.addToLogTail e).snapPlace = _
        rw [hadd]
        rfl
      have hlast : (s.addEntry e).p.lastIndex = e.index := by
        change (s.p.addToLogTail e).lastIndex = _
        rw [hadd]
      apply ih (h.write hw hlog hm) (hw.write h _ _)
      · change (s.addEntry e).p.snapPlace.2 < _
        rw [hplace]
        exact hsnap.trans (Nat.lt_succ_self _)
      · change _ ≤ (s.addEntry e).p.lastIndex + 1
        rw [hlast]
      · exact hrest

theorem Inv.appendEntries :
    ∀ {entries : List LogEntry} {i : Index}, s.Inv → i ≤ s.p.lastIndex + 1 →
      entries.map LogEntry.index = range' i entries.length →
      (∀ e ∈ entries, (s.p.lookup e.index).map LogEntry.term ≠ some e.term →
        s.Writable ∧ s.p.snapPlace.2 < e.index) →
      (s.appendEntries i entries).Inv := by
  intro entries
  induction entries with
  | nil =>
    intro i h _ _ _
    exact h
  | cons e entries ih =>
    intro i h hi hindex hnew
    obtain ⟨he, hrest⟩ := cons.inj hindex
    obtain ⟨hnew, hnews⟩ := forall_mem_cons.mp hnew
    by_cases hsame : (s.p.lookup i).map LogEntry.term = some e.term
    · rw [FsPersist.appendEntries, if_pos hsame]
      refine ih h (Nat.succ_le_succ ?_) hrest hnews
      rcases le_or_gt i s.p.snapPlace.2 with hle | hgt
      · exact hle.trans h.log.le
      · exact (h.log.present i hgt).mp (isSome_map.symm.trans (by rw [hsame]; rfl))
    · subst he
      obtain ⟨hw, hsnap⟩ := hnew hsame
      exact h.appendEntries_of_writable hw hsnap hi hindex

theorem le_lastIndex_of_knowsPrevious (h : s.p.LogInv)
    (hk : s.p.knowsPrevious t i) : i ≤ s.p.lastIndex := by
  rcases of_decide_eq_true hk with ⟨rfl, -⟩ | hterm
  · exact h.base.trans h.le
  · rcases le_or_gt i s.p.snapPlace.2 with hle | hgt
    · exact hle.trans h.le
    · exact (h.present i hgt).mp (isSome_map.symm.trans (by rw [hterm]; rfl))

/-! ## Snapshots -/

theorem Inv.takeSnapshot (h : s.Inv) (hc : s.Called (.takeSnapshot t i))
    (hm : s.Meets (.takeSnapshot t i)) : (s.takeSnapshot t i).Inv := by
  obtain ⟨hpos, hplace, hterm⟩ := hc
  obtain ⟨hmax, ht, hi⟩ := hm
  have hne : i ≠ 0 := hpos.ne'
  rcases hlookup : s.p.lookup i with _ | e
  · -- the snapshot file is removed again, and it was none that counts
    have heq : s.takeSnapshot t i = { s with dir := { s.dir with
        snaps := AList.erase (termIndexToFileName t i) s.dir.snaps } } := by
      rw [FsPersist.takeSnapshot, finishSnapshot, if_neg hne, hlookup]
    have hsnap : latestSnap { s.dir with
        snaps := AList.erase (termIndexToFileName t i) s.dir.snaps } = s.dir.latestSnap := by
      apply latestSnap_eq_of_subset
      · exact fun f hf ↦ ⟨(AList.mem_erase.mp hf.snap).2, hf.complete, hf.parse⟩
      · intro f t' i' hlast
        have hf := (valid_of_latestSnap hlast).1
        exact ⟨AList.mem_erase.mpr ⟨(hmax f hf.complete).ne, hf.snap⟩, hf.complete, hf.parse⟩
    have hfirst := firstLog_congr hsnap
    rw [heq]
    refine ⟨h.log, ?_, h.lf, ?_, h.streams⟩
    · convert h.mirrors using 1
      rw [read_of_mem h.first, read_of_mem (by rw [hfirst]; exact h.first), hsnap, hfirst]
    · rw [hfirst]
      exact h.first
  · have heq : s.takeSnapshot t i =
        { p := { s.p.trimLogTail i with lastSnap := some (t, i) }
          dir := s.dir.snapshot t i (trimmedRecords s.p i)
          lf := termIndexToFileName t i } := by
      simp only [FsPersist.takeSnapshot, finishSnapshot, if_neg hne, hlookup]
      rfl
    obtain ⟨hlog, hmirrors⟩ := mirrors_snapshot h.log hplace hlookup
      (hterm e (mem_def.mpr hlookup)) (termIndexToFileName t i)
    obtain ⟨hvalid, hfirst⟩ := valid_of_latestSnap
      (latestSnap_snapshot ht hi hmax (trimmedRecords s.p i))
    rw [heq]
    refine ⟨hlog, ?_, hvalid.complete, ?_, newLog_streams_ne_nil h.streams _⟩
    · rw [read_snapshot ht hi hmax]
      exact hmirrors
    · rw [hfirst]
      exact hvalid.complete

/-! ## Restarts -/

theorem Inv.restart (h : s.Inv) (hm : s.Meets .restart) : (openPersist s.dir).Inv := by
  have hmax : ∀ f ∈ s.dir.logs.keys,
      f ≤ termIndexToFileName s.dir.read.lastTerm s.dir.read.lastIndex := by
    rw [h.mirrors.lastTerm, h.mirrors.lastIndex]
    exact hm
  have hfirst : (openPersist s.dir).dir.firstLog = s.dir.firstLog := by
    rw [← firstLog_congr (latestSnap_cleaned h.first)]
    apply firstLog_congr
    apply latestSnap_newLog
    intro hsnap
    exact (mem_keys_cleaned h.first).mpr ⟨(mem_snaps_cleaned.mp hsnap).2.1, hmax _ h.first⟩
  refine ⟨h.mirrors.logInv h.log, ?_, mem_keys_newLog.mpr (Or.inl rfl), ?_,
    newLog_streams_ne_nil (streams_cleaned_ne_nil h.first h.streams) _⟩
  · rw [read_openPersist h.first hmax h.streams]
    exact h.mirrors.refl
  · rw [hfirst]
    exact mem_keys_newLog.mpr (Or.inr ((mem_keys_cleaned h.first).mpr ⟨h.first, le_rfl⟩))

/-- **Every step keeps the files in line with the state.** -/
theorem Inv.exec [DecidableEq ι] {op : Op ι} (h : s.Inv) (hc : s.Called op) (hm : s.Meets op) :
    (s.exec op).Inv := by
  cases op with
  | setCurrentTerm ct => exact h.syncLog hm ct s.p.votedFor
  | incCurrentTerm => exact h.syncLog hm (s.p.currentTerm + 1) s.p.votedFor
  | setVotedFor vf =>
    rw [FsPersist.exec]
    split
    · exact h
    · next hne => exact h.syncLog (hm hne) s.p.currentTerm vf
  | setCurrentTermAndVotedFor ct vf => exact h.syncLog hm ct vf
  | appendToLog prevTerm prevIndex entries =>
    rw [FsPersist.exec]
    split
    · next hk =>
      have hle := le_lastIndex_of_knowsPrevious h.log hk
      exact h.appendEntries (Nat.succ_le_succ hle) hc hm
    · exact h
  | takeSnapshot t i => exact h.takeSnapshot hc hm
  | snapshotFromLeader t i => exact hm.elim
  | restart => exact h.restart hm

/-- The state `p'` after a restart is the state `p` before it. -/
structure Survives (p p' : Persist ι) : Prop where
  currentTerm : p'.currentTerm = p.currentTerm
  votedFor : p'.votedFor = p.votedFor
  lastIndex : p'.lastIndex = p.lastIndex
  lastTerm : p'.lastTerm = p.lastTerm
  base : (p'.baseTerm, p'.baseIndex) = (p.baseTerm, p.baseIndex)
  entries : ∀ i, p'.lookup i = p.lookup i

/-- The log starts at the last snapshot and has entries of clients only. -/
structure Plain (p : Persist ι) : Prop where
  base : (p.baseTerm, p.baseIndex) = p.snapPlace
  client : ∀ e ∈ p.logTail.entries, e.2.type = .client

instance (p : Persist ι) : Decidable (Plain p) :=
  decidable_of_iff (_ ∧ _) ⟨fun h ↦ ⟨h.1, h.2⟩, fun h ↦ ⟨h.base, h.client⟩⟩

theorem Inv.survives_iff (h : s.Inv) : Survives s.p s.dir.read ↔ Plain s.p := by
  constructor
  · intro hs
    refine ⟨(h.mirrors.base.symm.trans hs.base).symm, fun ⟨i, e⟩ he ↦ ?_⟩
    -- what is read back of this entry is one of a client
    have hlookup : s.p.lookup i = some e := Table.mem_entries_iff.mp he
    have hread := hs.entries i
    rw [h.mirrors.entries, hlookup, map_some] at hread
    split at hread
    · exact (congrArg LogEntry.type (some.inj hread)).symm
    · cases hread
  · rintro ⟨hbase, hclient⟩
    refine ⟨h.mirrors.currentTerm, h.mirrors.votedFor, h.mirrors.lastIndex, h.mirrors.lastTerm,
      h.mirrors.base.trans hbase.symm, fun i ↦ ?_⟩
    rw [h.mirrors.entries]
    split
    · rcases he : s.p.lookup i with _ | e
      · rfl
      · have htype : e.type = .client := hclient ⟨i, e⟩ (Table.mem_entries_iff.mpr he)
        rw [map_some, untyped, ← htype]
    · next hle => exact ((h.log.opened (congrArg Prod.snd hbase)).2 i (not_lt.mp hle)).symm

/-- The system that takes the steps after which everything can be read back. -/
def stepMeets [DecidableEq ι] : FsPersist ι → Op ι → Option (FsPersist ι) :=
  guarded (fun s op ↦ s.Called op ∧ s.Meets op) fun s op ↦ some (s.exec op)

/-- **When the state survives a restart**, after any such run. -/
theorem restart_survives_iff [DecidableEq ι] {ops : List (Op ι)} {s s' : FsPersist ι}
    (hrun : run stepMeets (openPersist Dir.empty) ops = some s)
    (hrestart : stepMeets s .restart = some s') : Survives s.p s'.p ↔ Plain s.p := by
  have hinv : s.Inv := by
    refine guarded_invariant (I := Inv) (fun s op t hs hok heq ↦ ?_) inv_empty hrun
    cases heq
    exact hs.exec hok.1 hok.2
  obtain ⟨-, heq⟩ := guarded_eq_some_iff.mp hrestart
  cases heq
  exact hinv.survives_iff

/-- A run with a snapshot, a restart and more entries before the last restart. -/
theorem restart_survives_snapshot : ∃ s s' : FsPersist (Fin 2),
    run stepMeets (openPersist Dir.empty)
      [.setCurrentTermAndVotedFor 1 (some 0),
        .appendToLog 0 0 [⟨1, 1, [7], .client⟩, ⟨1, 2, [8], .client⟩], .takeSnapshot 1 1, .restart,
        .setCurrentTerm 2, .appendToLog 1 2 [⟨2, 3, [9], .client⟩]] = some s ∧
      stepMeets s .restart = some s' ∧ s.p.lastIndex = 3 ∧ s.p.baseIndex = 1 ∧
      Survives s.p s'.p := by
  have hany : (run stepMeets (openPersist (empty : Dir (Fin 2)))
      [.setCurrentTermAndVotedFor 1 (some 0),
        .appendToLog 0 0 [⟨1, 1, [7], .client⟩, ⟨1, 2, [8], .client⟩], .takeSnapshot 1 1, .restart,
        .setCurrentTerm 2, .appendToLog 1 2 [⟨2, 3, [9], .client⟩]]).any (fun s ↦
      (stepMeets s .restart).isSome &&
        decide (s.p.lastIndex = 3 ∧ s.p.baseIndex = 1 ∧ Plain s.p)) = true := by
    decide +kernel
  obtain ⟨s, hrun, hP⟩ := exists_run_of_any hany
  obtain ⟨hsome, hdec⟩ := Bool.and_eq_true_iff.mp hP
  obtain ⟨s', hs'⟩ := Option.isSome_iff_exists.mp hsome
  obtain ⟨hlast, hbase, hplain⟩ := of_decide_eq_true hdec
  exact ⟨s, s', hrun, hs', hlast, hbase, (restart_survives_iff hrun hs').mpr hplain⟩

/-- A term that is set after a restart which did not move the end of the log is lost at the next
restart: it was written to a second stream of the same file. -/
theorem restart_loses_term :
    let s := [Op.restart, .setCurrentTerm 1].foldl exec (openPersist (Dir.empty : Dir (Fin 2)))
    s.p.currentTerm = 1 ∧ (s.exec .restart).p.currentTerm = 0 := by
  decide +kernel

-- the entry that a new leader logs comes back as one of a client
example :
    let s := [Op.setCurrentTerm 1, .appendToLog 0 0 [⟨1, 1, [], .raft⟩]].foldl exec
      (openPersist (Dir.empty : Dir (Fin 2)))
    (s.p.lookup 1).map LogEntry.type = some .raft ∧
      ((s.exec .restart).p.lookup 1).map LogEntry.type = some .client := by
  decide +kernel

-- a restart after a snapshot starts at the snapshot
example :
    let s := [Op.setCurrentTermAndVotedFor 1 (some 0),
      .appendToLog 0 0 [⟨1, 1, [7], .client⟩, ⟨1, 2, [8], .client⟩], .takeSnapshot 1 1].foldl exec
      (openPersist (Dir.empty : Dir (Fin 2)))
    s.p.baseIndex = 0 ∧ (s.exec .restart).p.baseIndex = 1 := by
  decide +kernel

-- a snapshot from the leader is gone
example :
    let s := [Op.setCurrentTerm 1, .snapshotFromLeader 1 5].foldl exec
      (openPersist (Dir.empty : Dir (Fin 2)))
    s.p.lastIndex = 5 ∧ (s.exec .restart).p.lastIndex = 0 := by
  decide +kernel

end FsPersist

end Vanadium.Raft
