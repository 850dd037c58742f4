import Vanadium.Foundations.Transition
import Vanadium.Vsync.Initiator

/-!
# Batches over several rounds

The members of a batch can arrive in different rounds. A round that starts a batch of an earlier
round continues with the entry that was saved, and saving drops the empty maps of an entry. What was
added is kept along a run as two maps of its own (`Batches`), to compare it with what is saved.
-/

namespace Vanadium.Vsync

open Foundations Table Program Transition Option SyncService
open EStateM (Result)

/-- The calls by which batches are put together. -/
inductive BatchCall where
  | start (btid : BatchId)
  | addNode (btid : BatchId) (oid : Oid) (version : Version)
  | addLink (btid : BatchId) (oid : Oid) (version : Version)
  | finish (btid : BatchId) (count : ℕ)

def BatchCall.exec (o : Oracle) : BatchCall → SyncM Unit
  | .start btid => fun s ↦ .ok () { s with svc := (s.svc.startBatch o s.tx btid).2 }
  | .addNode btid oid version => updateSvc (·.addNodeToBatch btid oid version)
  | .addLink btid oid version => updateSvc (·.addLinkToBatch btid oid version)
  | .finish btid count => endBatch btid count

/-- The call writes to a nil map. -/
def BatchCall.fails (o : Oracle) (c : BatchCall) (s : Session) : Bool :=
  match c.exec o s with
  | .error .nilMap _ => true
  | _ => false

/-- A session, and the members that were added to each batch since the store was created: nodes and
links, with the last version given for an object. -/
structure Batches where
  s : Session
  nodes : BatchId → Oid → Option Version
  links : BatchId → Oid → Option Version

namespace Batches

def addMember (m : BatchId → Oid → Option Version) (btid : BatchId) (oid : Oid)
    (version : Version) : BatchId → Oid → Option Version :=
  Function.update m btid (Function.update (m btid) oid (some version))

def record (b : Batches) : BatchCall → Batches
  | .addNode btid oid version => { b with nodes := addMember b.nodes btid oid version }
  | .addLink btid oid version => { b with links := addMember b.links btid oid version }
  | _ => b

/-- A call that fails changes nothing. A write to a nil map ends the process. -/
def step (o : Oracle) (b : Batches) (c : BatchCall) : Option Batches :=
  match c.exec o b.s with
  | .ok _ s' => some ({ b with s := s' }.record c)
  | .error e s' => if e = .nilMap then none else some { b with s := s' }

def initial (s : Session) : Batches := ⟨s, fun _ _ ↦ none, fun _ _ ↦ none⟩

/-- Links are added only to batches that are not saved yet or were saved with links. A batch that
has links when it ends has nodes as well. A new batch id is not that of a saved batch. -/
def Tame (o : Oracle) (b : Batches) : BatchCall → Prop
  | .start btid => btid = noBatchId → AList.lookup (o.rand64 b.s.svc.batches) b.s.tx.batches = none
  | .addNode _ _ _ => True
  | .addLink btid _ _ => ∀ info ∈ AList.lookup btid b.s.tx.batches, info.linkedObjects ≠ none
  | .finish btid _ => ∀ info ∈ AList.lookup btid b.s.svc.batches,
      (info.objects.getD ∅).entries = [] → (info.linkedObjects.getD ∅).entries = []

instance (o : Oracle) (b : Batches) : ∀ c, Decidable (b.Tame o c)
  | .start _ => inferInstanceAs (Decidable (_ → _))
  | .addNode _ _ _ => inferInstanceAs (Decidable True)
  | .addLink _ _ _ => inferInstanceAs (Decidable (∀ info ∈ _, _))
  | .finish _ _ => inferInstanceAs (Decidable (∀ info ∈ _, _))

/-! ## What is known of an entry -/

/-- Reading a map, which may be nil. -/
def shown (m : Option (Table Oid Version)) (oid : Oid) : Option Version :=
  AList.lookup oid (m.getD ∅)

theorem shown_of_entries {m : Option (Table Oid Version)} (h : (m.getD ∅).entries = []) :
    shown m = fun _ ↦ none := by
  funext oid
  rw [shown, lookup_eq_none_iff, AList.keys, h]
  exact List.not_mem_nil

theorem shown_decodeMap (m : Option (Table Oid Version)) : shown (decodeMap m) = shown m := by
  rcases m with _ | t
  · rfl
  · by_cases h : t.entries = []
    · rw [shown_of_entries (m := some t) h, decodeMap, filter_some_neg (by simp [h])]
      rfl
    · rw [decodeMap, filter_some_pos (by simp [h])]

/-- The entries of a batch, under construction and saved, show its nodes and links. -/
structure Kept (mem saved : Option BatchInfo) (nodes links : Oid → Option Version) : Prop where
  nodes : shown ((mem.or saved).bind BatchInfo.objects) = nodes
  links : shown ((mem.or saved).bind BatchInfo.linkedObjects) = links
  objects : ∀ info ∈ mem, info.objects ≠ none
  linkedObjects : ∀ info ∈ mem, info.linkedObjects = none → ∃ old ∈ saved, old.linkedObjects = none
  saved : ∀ old ∈ saved, (((mem.or saved).bind BatchInfo.objects).getD ∅).entries ≠ []

section Kept

variable {mem saved : Option BatchInfo} {info : BatchInfo} {nodes links : Oid → Option Version}
  {t : Table Oid Version}

theorem Kept.start (h : Kept none saved nodes links) :
    Kept (some (saved.getD newBatchInfo)) saved nodes links := by
  rcases saved with _ | old
  · refine ⟨h.nodes, h.links, ?_, ?_, by simp⟩
    · simp [newBatchInfo]
    · simp [newBatchInfo]
  · refine ⟨h.nodes, h.links, ?_, ?_, h.saved⟩
    · rintro _ ⟨⟩ hnil
      change old.objects = none at hnil
      exact h.saved old rfl (by simp [hnil])
    · rintro _ ⟨⟩ hnil
      exact ⟨old, rfl, hnil⟩

theorem shown_insert (t : Table Oid Version) (oid : Oid) (version : Version) :
    shown (some (t.insert oid version)) = Function.update (shown (some t)) oid (some version) := by
  funext oid'
  rw [shown, getD_some, lookup_insert_eq_ite, Function.update_apply]
  rfl

theorem Kept.addNode (h : Kept (some info) saved nodes links)
    (ht : info.objects = some t) (oid : Oid) (version : Version) :
    Kept (some { info with objects := some (t.insert oid version) }) saved
      (Function.update nodes oid (some version)) links := by
  refine ⟨?_, h.links, by simp, ?_, ?_⟩
  · rw [← h.nodes]
    simpa [ht] using shown_insert t oid version
  · rintro _ ⟨⟩ hnil
    exact h.linkedObjects info rfl hnil
  · simp

theorem Kept.addLink (h : Kept (some info) saved nodes links)
    (ht : info.linkedObjects = some t) (oid : Oid) (version : Version) :
    Kept (some { info with linkedObjects := some (t.insert oid version) }) saved nodes
      (Function.update links oid (some version)) := by
  refine ⟨h.nodes, ?_, ?_, by simp, h.saved⟩
  · rw [← h.links]
    simpa [ht] using shown_insert t oid version
  · rintro _ ⟨⟩
    exact h.objects info rfl

/-- What `endBatch` leaves: the saved entry, or nothing. -/
theorem Kept.finish (h : Kept (some info) saved nodes links) (count : ℕ)
    (hlinks : (info.objects.getD ∅).entries = [] → (info.linkedObjects.getD ∅).entries = []) :
    Kept none (if 0 < (info.objects.map (·.entries.length)).getD 0 then
      some ⟨decodeMap info.objects, decodeMap info.linkedObjects, count⟩ else
        saved) nodes links := by
  obtain ⟨t, ht⟩ := ne_none_iff_exists'.mp (h.objects info rfl)
  by_cases hempty : t.entries = []
  · -- there is no saved entry, and there are no members
    have hsaved : saved = none := by
      rcases saved with _ | old
      · rfl
      · exact absurd (by simp [ht, hempty]) (h.saved old rfl)
    have hnodes : shown info.objects = nodes := h.nodes
    have hlinks' : shown info.linkedObjects = links := h.links
    rw [shown_of_entries (by rw [ht]; exact hempty)] at hnodes
    rw [shown_of_entries (hlinks (by rw [ht]; exact hempty))] at hlinks'
    rw [if_neg (by simp [ht, hempty]), hsaved]
    exact ⟨hnodes, hlinks', by simp, by simp, by simp⟩
  · have hlen : 0 < (info.objects.map (·.entries.length)).getD 0 := by
      rw [ht]
      exact List.length_pos_iff.mpr hempty
    rw [if_pos hlen]
    refine ⟨?_, ?_, by simp, by simp, ?_⟩
    · rw [← h.nodes]
      exact shown_decodeMap _
    · rw [← h.links]
      exact shown_decodeMap _
    · rintro _ ⟨⟩
      rw [ht, decodeMap, filter_some_pos (by simp [hempty])]
      exact hempty

end Kept

/-! ## Calls -/

section Calls

variable {o : Oracle} {svc svc' : SyncService} {st : Store} {btid : BatchId} {oid : Oid}
    {version : Version}
  {b b' : Batches} {c : BatchCall}

theorem lookup_startBatch
    (h : btid = noBatchId → st.batches.lookup (o.rand64 svc.batches) = none) (id : BatchId) :
    AList.lookup id (svc.startBatch o st btid).2.batches = svc.batches.lookup id ∨
      (svc.batches.lookup id = none ∧ AList.lookup id (svc.startBatch o st btid).2.batches =
        some ((st.batches.lookup id).getD newBatchInfo)) := by
  rw [startBatch]
  split
  · next hid =>
    rw [lookup_insert_eq_ite]
    split
    · next heq =>
      refine Or.inr ⟨heq ▸ o.rand64_unused _, ?_⟩
      rw [heq, h hid]
      rfl
    · exact Or.inl rfl
  · next hid =>
    rcases hmem : svc.batches.lookup btid with _ | info
    · rw [lookup_insert_eq_ite, Store.getBatch, if_neg hid]
      split
      · next heq =>
        subst heq
        refine Or.inr ⟨hmem, ?_⟩
        rcases st.batches.lookup id with _ | old <;> rfl
      · exact Or.inl rfl
    · exact Or.inl rfl

theorem lookup_dropBatch (svc : SyncService) (btid id : BatchId) :
    AList.lookup id (svc.dropBatch btid).batches = if id = btid then none else
    svc.batches.lookup id :=
  lookup_erase_eq_ite _ _ _

theorem lookup_saveBatch (st : Store) (btid : BatchId) (count : ℕ) (info : BatchInfo)
    (id : BatchId) : AList.lookup id (st.saveBatch btid count info).batches = if id = btid then
      (if 0 < (info.objects.map (·.entries.length)).getD 0 then
        some ⟨decodeMap info.objects, decodeMap info.linkedObjects, count⟩ else
          st.batches.lookup id)
      else st.batches.lookup id := by
  rw [Store.saveBatch]
  split
  · exact lookup_insert_eq_ite _ _ _ _
  · rw [ite_self]

/-- The entries of every batch show what was added to it. -/
def Sound (b : Batches) : Prop := ∀ btid, Kept (AList.lookup btid b.s.svc.batches)
  (AList.lookup btid b.s.tx.batches) (b.nodes btid) (b.links btid)

open BatchCall

theorem exec_error {s s' : Session} {e : SyncErr} (h : c.exec o s = .error e s') : s' = s := by
  rcases c with btid | ⟨btid, oid, version⟩ | ⟨btid, oid, version⟩ | ⟨btid, count⟩
  · contradiction
  · rw [exec, updateSvc] at h
    split at h
    · contradiction
    · exact (Result.error.inj h).2.symm
  · rw [exec, updateSvc] at h
    split at h
    · contradiction
    · exact (Result.error.inj h).2.symm
  · exact (endBatch_error h).1

theorem Sound.step (h : b.Sound) (ht : b.Tame o c) (hs : b.step o c = some b') : b'.Sound := by
  rw [Batches.step] at hs
  split at hs
  · next s' hexec =>
    obtain rfl := some.inj hs
    intro id
    rcases c with btid | ⟨btid, oid, version⟩ | ⟨btid, oid, version⟩ | ⟨btid, count⟩
    · obtain rfl := (Result.ok.inj hexec).2
      change Kept (AList.lookup id (b.s.svc.startBatch o b.s.tx btid).2.batches) _ _ _
      rcases lookup_startBatch ht id with heq | ⟨hnone, heq⟩
      · rw [heq]
        exact h id
      · rw [heq]
        have hid := h id
        rw [hnone] at hid
        exact hid.start
    · rw [exec, updateSvc_eq_ok_iff] at hexec
      obtain ⟨svc', hok, rfl⟩ := hexec
      obtain ⟨info, t, hinfo, htab, rfl⟩ := addNodeToBatch_ok hok
      change Kept ((b.s.svc.batches.insert btid _).lookup id) _ (addMember _ _ _ _ id) _
      rw [lookup_insert_eq_ite, addMember, Function.update_apply]
      split
      · next heq =>
        subst heq
        have hid := h id
        rw [hinfo] at hid
        exact hid.addNode htab oid version
      · exact h id
    · rw [exec, updateSvc_eq_ok_iff] at hexec
      obtain ⟨svc', hok, rfl⟩ := hexec
      obtain ⟨info, t, hinfo, htab, rfl⟩ := addLinkToBatch_ok hok
      change Kept ((b.s.svc.batches.insert btid _).lookup id) _ _ (addMember _ _ _ _ id)
      rw [lookup_insert_eq_ite, addMember, Function.update_apply]
      split
      · next heq =>
        subst heq
        have hid := h id
        rw [hinfo] at hid
        exact hid.addLink htab oid version
      · exact h id
    · obtain ⟨-, -, info, hinfo, -, rfl⟩ := endBatch_eq_ok_iff.mp hexec
      change Kept (AList.lookup id (b.s.svc.dropBatch btid).batches)
        (AList.lookup id (b.s.tx.saveBatch btid count info).batches) _ _
      rw [lookup_dropBatch, lookup_saveBatch]
      by_cases heq : id = btid
      · subst heq
        have hid := h id
        rw [hinfo] at hid
        rw [if_pos rfl, if_pos rfl]
        exact hid.finish count (ht info hinfo)
      · rw [if_neg heq, if_neg heq]
        exact h id
  · next e s' hexec =>
    obtain ⟨-, ⟨⟩⟩ := ite_none_left_eq_some.mp hs
    obtain rfl := exec_error hexec
    exact h

theorem Sound.exec_ne_nilMap (h : b.Sound) (ht : b.Tame o c) (s' : Session) :
    c.exec o b.s ≠ .error .nilMap s' := by
  intro hexec
  rcases c with btid | ⟨btid, oid, version⟩ | ⟨btid, oid, version⟩ | ⟨btid, count⟩
  · contradiction
  · rw [exec, updateSvc, addNodeToBatch] at hexec
    split_ifs at hexec
    · simp at hexec
    · rcases hinfo : b.s.svc.batches.lookup btid with _ | info
      · simp [hinfo] at hexec
      · obtain ⟨t, htab⟩ := ne_none_iff_exists'.mp ((h btid).objects info hinfo)
        simp [hinfo, htab] at hexec
  · rw [exec, updateSvc, addLinkToBatch] at hexec
    split_ifs at hexec
    · simp at hexec
    · rcases hinfo : b.s.svc.batches.lookup btid with _ | info
      · simp [hinfo] at hexec
      · rcases htab : info.linkedObjects with _ | t
        · obtain ⟨old, hold, hnil⟩ := (h btid).linkedObjects info hinfo htab
          exact ht old hold hnil
        · simp [hinfo, htab] at hexec
  · exact (endBatch_error hexec).2 rfl

end Calls

/-- **Batches are put together over several rounds**: no map that is written to is nil, and a batch
that ends is saved with all members that were added to it in all rounds, if every call meets the
condition. -/
theorem batches_saved {o : Oracle} {s : Session} {calls : List BatchCall} {b : Batches}
    (hmem : s.svc.batches = ∅) (hst : s.tx.batches = ∅)
    (hrun : run (guarded (Tame o) (step o)) (initial s) calls = some b) :
    (∀ c, b.Tame o c → ∀ s', c.exec o b.s ≠ .error .nilMap s') ∧
      ∀ btid count s', b.Tame o (.finish btid count) → endBatch btid count b.s = .ok () s' →
        shown ((AList.lookup btid s'.tx.batches).bind BatchInfo.objects) = b.nodes btid ∧
          shown ((AList.lookup btid s'.tx.batches).bind BatchInfo.linkedObjects) =
            b.links btid := by
  have hsound : b.Sound := by
    refine guarded_invariant (fun _ _ _ h ht hstep ↦ h.step ht hstep) (fun btid ↦ ?_) hrun
    change Kept (s.svc.batches.lookup btid) (s.tx.batches.lookup btid) _ _
    rw [hmem, hst]
    exact ⟨rfl, rfl, by simp, by simp, by simp⟩
  refine ⟨fun c ht s' ↦ hsound.exec_ne_nilMap ht s', fun btid count s' ht hend ↦ ?_⟩
  obtain ⟨-, -, info, hinfo, -, rfl⟩ := endBatch_eq_ok_iff.mp hend
  have hkept := hsound btid
  rw [hinfo] at hkept
  have hsaved := hkept.finish count (ht info hinfo)
  rw [lookup_saveBatch, if_pos rfl]
  exact ⟨hsaved.nodes, hsaved.links⟩

/-- A device with an empty store. -/
def newSession : Session := Session.start ⟨1, none, ∅, ∅⟩ Store.empty

/-- A node and a link in the first round, another node in the second. -/
theorem batches_saved_two_rounds : ∃ b, run (guarded (Tame .counting) (step .counting))
    (initial newSession) [.start 5, .addNode 5 [120] [1], .addLink 5 [121] [2], .finish 5 3,
      .start 5, .addNode 5 [122] [3]] = some b ∧
    ∀ s', endBatch 5 3 b.s = .ok () s' →
      shown ((AList.lookup 5 s'.tx.batches).bind BatchInfo.objects) [120] = some [1] := by
  have hany : (run (guarded (Tame .counting) (step .counting)) (initial newSession)
      [.start 5, .addNode 5 [120] [1], .addLink 5 [121] [2], .finish 5 3, .start 5,
        .addNode 5 [122] [3]]).any (fun b ↦ decide (b.Tame .counting (.finish 5 3) ∧
          b.nodes 5 [120] = some [1])) = true := by decide +kernel
  obtain ⟨b, hrun, hb⟩ := exists_run_of_any hany
  obtain ⟨ht, hnode⟩ := of_decide_eq_true hb
  refine ⟨b, hrun, fun s' hend ↦ ?_⟩
  rw [((batches_saved rfl rfl hrun).2 5 3 s' ht hend).1]
  exact hnode

/-- A batch is saved without links, and the link that comes in the next round is written to a nil
map. A batch that has links only is not saved. -/
theorem later_link_panics :
    (∃ b, run (step .counting) (initial newSession)
      [.start 5, .addNode 5 [120] [1], .finish 5 2, .start 5] = some b ∧
        ∃ s', (BatchCall.addLink 5 [121] [2]).exec .counting b.s = .error .nilMap s') ∧
    ∃ b, run (step .counting) (initial newSession)
    [.start 5, .addLink 5 [121] [2], .finish 5 1] = some b ∧
      b.links 5 [121] = some [2] ∧ AList.lookup 5 b.s.tx.batches = none := by
  constructor
  · have hany : (run (step .counting) (initial newSession)
        [.start 5, .addNode 5 [120] [1], .finish 5 2, .start 5]).any (fun b ↦
          (BatchCall.addLink 5 [121] [2]).fails .counting b.s) = true := by decide +kernel
    obtain ⟨b, hrun, hb⟩ := exists_run_of_any hany
    refine ⟨b, hrun, ?_⟩
    rw [BatchCall.fails] at hb
    split at hb
    · next s' hexec => exact ⟨s', hexec⟩
    · contradiction
  · have hany : (run (step .counting) (initial newSession)
        [.start 5, .addLink 5 [121] [2], .finish 5 1]).any (fun b ↦
          decide (b.links 5 [121] = some [2]) && (b.s.tx.batches.lookup 5).isNone) = true := by
      decide +kernel
    obtain ⟨b, hrun, hb⟩ := exists_run_of_any hany
    rw [Bool.and_eq_true, decide_eq_true_iff, Option.isNone_iff_eq_none] at hb
    exact ⟨b, hrun, hb⟩

end Batches

end Vanadium.Vsync
