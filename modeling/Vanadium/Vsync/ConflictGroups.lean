import Vanadium.Vsync.Dag

/-!
# Groups of conflicts

Conflicts that an application resolves are handed to it in groups: objects whose heads belong to the
same batches, directly or through other objects, are to be resolved together. `groupFor` follows the
batches of the heads of a dirty object, and `processBatchId` the objects of a batch. An object that
is not dirty is pulled into the group but not followed.
-/

namespace Vanadium.Vsync

open Foundations Table Program List Option
open EStateM (Result)

/-! ## The code -/

/-- `wire.BatchSourceLocal` and `wire.BatchSourceRemote`. -/
inductive BatchSource where
  | localBatch
  | remoteBatch
  deriving DecidableEq

structure CrGroup where
  batchSource : Table BatchId BatchSource
  batchesByOid : Table Oid (List BatchId)

def initCrGroup : CrGroup := ⟨∅, ∅⟩

/-- `groupedCrData`; the set of oids is a list. -/
structure GroupedCrData where
  groups : List CrGroup
  oids : List Oid

/-- What `groupFor` works on. -/
structure Closure where
  updObjects : Table Oid ObjConflictState
  group : CrGroup

abbrev CrM : Type → Type := EStateM SyncErr Closure

/-- The entry of a dirty object: one that was not added by conflict resolution (`isDirty`). -/
def dirtyEntry (updObjects : Table Oid ObjConflictState) (oid : Oid) : Option ObjConflictState :=
  (AList.lookup oid updObjects).filter (!·.isAddedByCr)

def addNewConflictObj (tx : Store) (oid : Oid) : CrM Unit := fun s ↦
  match tx.getHead oid with
  | .error _ => .error (.fatal "sync: ConflictClosure: error while fetching head for oid") s
  | .ok headVer =>
    .ok () { s with
      updObjects := AList.insert oid ⟨true, false, noVersion, headVer, noVersion,
        none⟩ s.updObjects }

def getBatchId (tx : Store) (oid : Oid) (version : Version) : Except SyncErr BatchId :=
  if version = noVersion then .ok noBatchId
  else
    match tx.getNode oid version with
    | .error _ => .error (.fatal "sync: ConflictClosure: error while fetching dag node")
    | .ok dagNode => .ok dagNode.batchId

/-- `getBatchElements`: the linked objects are added to the map of objects, which may be nil. -/
def getBatchElements (tx : Store) (batchId : BatchId) : Except SyncErr (Table Oid Version) :=
  match tx.getBatch batchId with
  | .error _ => .error (.fatal "sync: ConflictClosure: error while fetching batch info")
  | .ok bInfo =>
    match bInfo.objects, (bInfo.linkedObjects.getD ∅).entries with
    | none, [] => .ok ∅
    | none, _ :: _ => .error .nilMap
    | some objects, linked => .ok (linked.foldl (fun (t : Table Oid Version) e ↦
        AList.insert e.1 e.2 t) objects)

/-- The batches of the local head, which only counts in a conflict, and of the remote head. -/
def headBatches (tx : Store) (oid : Oid) (c : ObjConflictState) :
    Except SyncErr (BatchId × BatchId) := do
  let localBatchId ← if c.isConflict then getBatchId tx oid c.oldHead else .ok noBatchId
  let remoteBatchId ← getBatchId tx oid c.newHead
  .ok (localBatchId, remoteBatchId)

/-- `groupFor`, given `processBatchId`. -/
def groupForWith (processBatchId : BatchId → BatchSource → CrM Unit) (tx : Store) (oid : Oid) :
    CrM Unit :=
  fun s ↦
    match dirtyEntry s.updObjects oid with
    | none => addNewConflictObj tx oid s
    | some c =>
      match headBatches tx oid c with
      | .error e => .error e s
      | .ok (localBatchId, remoteBatchId) =>
        if localBatchId = noBatchId ∧ remoteBatchId = noBatchId then
          .ok () { s with group.batchesByOid := AList.insert oid [] s.group.batchesByOid }
        else (do
          processBatchId localBatchId .localBatch
          processBatchId remoteBatchId .remoteBatch) s

/-- A batch is entered: all its elements are listed with it. -/
def CrGroup.enter (g : CrGroup) (batchId : BatchId) (source : BatchSource) (elements : List Oid) :
    CrGroup where
  batchSource := AList.insert batchId source g.batchSource
  batchesByOid := elements.foldl (fun (t : Table Oid (List BatchId)) k ↦
    AList.insert k ((AList.lookup k t).getD [] ++ [batchId]) t) g.batchesByOid

/-- `processBatchId`. The fuel bounds the depth of the recursion, which enters a new batch each
time. -/
def processBatchId (tx : Store) (fuel : ℕ) (batchId : BatchId) (source : BatchSource) :
    CrM Unit := fun s ↦
  if batchId = noBatchId ∨ (AList.lookup batchId s.group.batchSource).isSome then .ok () s
  else
    match fuel with
    | 0 => .error (.fatal "out of fuel") s
    | fuel + 1 =>
      match getBatchElements tx batchId with
      | .error e => .error e s
      | .ok elements => elements.keys.forM (groupForWith (processBatchId tx fuel) tx)
          { s with group := s.group.enter batchId source elements.keys }

def groupFor (tx : Store) (oid : Oid) : CrM Unit :=
  groupForWith (processBatchId tx tx.batches.entries.length) tx oid

/-- The loop of `groupConflicts` over the conflicts, in the order in which they are visited. -/
def groupConflictsFrom (tx : Store) :
    List Oid → GroupedCrData → Table Oid ObjConflictState →
    Except SyncErr (GroupedCrData × Table Oid ObjConflictState)
  | [], crData, updObjects => .ok (crData, updObjects)
  | oid :: rest, crData, updObjects =>
    if oid ∈ crData.oids then groupConflictsFrom tx rest crData updObjects
    else
      match groupFor tx oid ⟨updObjects, initCrGroup⟩ with
      | .error e _ => .error e
      | .ok _ s => groupConflictsFrom tx rest
          ⟨crData.groups ++ [s.group], crData.oids ++ s.group.batchesByOid.keys⟩ s.updObjects

def groupConflicts (tx : Store) (conflictsForApp : List Oid)
    (updObjects : Table Oid ObjConflictState) :
    Except SyncErr (GroupedCrData × Table Oid ObjConflictState) :=
  groupConflictsFrom tx conflictsForApp ⟨[], []⟩ updObjects

/-! ## Objects and batches as a graph -/

section Graph

variable (tx : Store) (u : Table Oid ObjConflictState)

/-- The batches that are followed from an object. -/
def follows (oid : Oid) : List BatchId :=
  match dirtyEntry u oid with
  | none => []
  | some c =>
    match headBatches tx oid c with
    | .error _ => []
    | .ok (l, r) => [l, r].filter (· ≠ noBatchId)

/-- The elements of a batch. -/
def elements (batchId : BatchId) : List Oid :=
  match getBatchElements tx batchId with
  | .error _ => []
  | .ok t => t.keys

/-- What the store knows: the nodes of the heads of dirty objects, the batches of these nodes, of
which the objects are elements, and a head for each element. -/
structure Known : Prop where
  heads : ∀ oid c, dirtyEntry u oid = some c → ∃ p, headBatches tx oid c = .ok p
  batch : ∀ oid, ∀ b ∈ follows tx u oid, ∃ t, getBatchElements tx b = .ok t ∧ oid ∈ t.keys ∧
    ∀ o ∈ t.keys, dirtyEntry u o = none → ∃ head, tx.getHead o = .ok head

/-- The batches that are followed from an object, directly or through the elements of others. -/
inductive Reaches (oid : Oid) : BatchId → Prop where
  | start {b : BatchId} : b ∈ follows tx u oid → Reaches oid b
  | next {b b' : BatchId} {o : Oid} : Reaches oid b → o ∈ elements tx b → b' ∈ follows tx u o →
      Reaches oid b'

/-- The closure of an object: the elements of these batches, or the object alone if there are
none. -/
def InClosure (oid o : Oid) : Prop :=
  (follows tx u oid = [] ∧ o = oid) ∨ ∃ b, Reaches tx u oid b ∧ o ∈ elements tx b

/-- A dirty object whose heads belong to no batch. -/
def Loose (o : Oid) : Prop := (dirtyEntry u o).isSome ∧ follows tx u o = []

end Graph

/-! ## What an exploration does -/

namespace Closure

variable {tx : Store} {u : Table Oid ObjConflictState} {s s' s'' : Closure} {root : Oid}

def seen (s : Closure) (b : BatchId) : Prop := (AList.lookup b s.group.batchSource).isSome

/-- An object is listed with the batches that were entered and have it as an element, each once. -/
def Exact (tx : Store) (s : Closure) (o : Oid) : Prop :=
  ((AList.lookup o s.group.batchesByOid).getD []).Nodup ∧
    ∀ b, b ∈ (AList.lookup o s.group.batchesByOid).getD [] ↔ s.seen b ∧ o ∈ elements tx b

/-- Batches are entered, all of them reached from `root`. What is followed from the elements of a
new batch is entered as well. The lists stay exact, but that of a loose object is emptied with each
new batch that has it. -/
structure Explores (tx : Store) (u : Table Oid ObjConflictState) (root : Oid) (s s' : Closure) :
    Prop where
  entries : ∀ o, dirtyEntry s'.updObjects o = dirtyEntry s.updObjects o
  mono : ∀ b, s.seen b → s'.seen b
  new : ∀ b, s'.seen b → s.seen b ∨ Reaches tx u root b
  closed : ∀ b, s'.seen b → s.seen b ∨ ∀ o ∈ elements tx b, ∀ b' ∈ follows tx u o, s'.seen b'
  pulled : ∀ o, o ∈ s'.group.batchesByOid.keys → o ∈ s.group.batchesByOid.keys ∨
    InClosure tx u root o
  exact : ∀ o, ¬Loose tx u o → s.Exact tx o ∧ AList.lookup o s.group.batchesByOid ≠ some [] →
    s'.Exact tx o ∧ AList.lookup o s'.group.batchesByOid ≠ some []
  loose : ∀ o, Loose tx u o → AList.lookup o s'.group.batchesByOid = some [] ∨
    (AList.lookup o s'.group.batchesByOid = AList.lookup o s.group.batchesByOid ∧
      ∀ b, s'.seen b → s.seen b ∨ o ∉ elements tx b)

theorem Explores.refl (s : Closure) : Explores tx u root s s where
  entries _ := rfl
  mono _ h := h
  new _ h := .inl h
  closed _ h := .inl h
  pulled _ h := .inl h
  exact _ _ h := h
  loose _ _ := .inr ⟨rfl, fun _ h ↦ .inl h⟩

theorem Explores.trans (h : Explores tx u root s s') (h' : Explores tx u root s' s'') :
    Explores tx u root s s'' where
  entries o := (h'.entries o).trans (h.entries o)
  mono b hb := h'.mono b (h.mono b hb)
  new b hb := (h'.new b hb).elim (h.new b) .inr
  closed b hb := by
    rcases h'.closed b hb with hb | hb
    · exact (h.closed b hb).imp_right fun hall o ho b' hb' ↦ h'.mono b' (hall o ho b' hb')
    · exact .inr hb
  pulled o ho := (h'.pulled o ho).elim (h.pulled o) .inr
  exact o ho hs := h'.exact o ho (h.exact o ho hs)
  loose o ho := by
    rcases h'.loose o ho with hnil | ⟨hsame, hnew⟩
    · exact .inl hnil
    · rw [hsame]
      refine (h.loose o ho).imp_right fun hold ↦ ⟨hold.1, fun b hb ↦ ?_⟩
      exact (hnew b hb).elim (hold.2 b) .inr

/-- An exploration that has dealt with an object. -/
structure Covers (tx : Store) (u : Table Oid ObjConflictState) (root : Oid)
    (s s' : Closure) (o : Oid) : Prop extends Explores tx u root s s' where
  followed : ∀ b ∈ follows tx u o, s'.seen b
  emptied : Loose tx u o → AList.lookup o s'.group.batchesByOid = some []

variable {o : Oid} {b : BatchId} {t : Table Oid Version} {fuel : ℕ} {l : List Oid}
  {src : BatchSource}

theorem Covers.trans (h : Covers tx u root s s' o) (h' : Explores tx u root s' s'') :
    Covers tx u root s s'' o where
  toExplores := h.toExplores.trans h'
  followed b hb := h'.mono b (h.followed b hb)
  emptied ho := (h'.loose o ho).elim id fun hold ↦ hold.1.trans (h.emptied ho)

/-! ## Entering a batch -/

open AList

theorem lookup_enter (g : CrGroup) (b : BatchId) (src : BatchSource) (hl : l.Nodup) (o : Oid) :
    lookup o (g.enter b src l).batchesByOid =
      if o ∈ l then some ((g.batchesByOid.lookup o).getD [] ++ [b]) else
        g.batchesByOid.lookup o := by
  have key : ∀ (l : List Oid) (t : Table Oid (List BatchId)), l.Nodup →
      lookup o (l.foldl (fun (t : Table Oid (List BatchId)) k ↦
        t.insert k ((t.lookup k).getD [] ++ [b])) t) =
        if o ∈ l then some ((t.lookup o).getD [] ++ [b]) else t.lookup o := by
    intro l
    induction l with
    | nil => simp
    | cons k l ih =>
      intro t hnodup
      rw [nodup_cons] at hnodup
      rw [foldl_cons, ih _ hnodup.2, lookup_insert_eq_ite]
      by_cases hok : o = k
      · subst hok
        rw [if_neg hnodup.1, if_pos rfl, if_pos mem_cons_self]
      · rw [if_neg hok]
        simp only [mem_cons, hok, false_or]
  exact key l g.batchesByOid hl

def enter (s : Closure) (b : BatchId) (src : BatchSource) (l : List Oid) : Closure :=
  { s with group := s.group.enter b src l }

theorem seen_enter {b' : BatchId} :
    (s.enter b src l).seen b' ↔ b' = b ∨ s.seen b' := by
  change ((s.group.batchSource.insert b src).lookup b').isSome ↔ _
  rw [lookup_insert_eq_ite, seen]
  by_cases h : b' = b <;> simp [h]

theorem exact_enter (hb : ¬s.seen b) (ht : getBatchElements tx b = .ok t)
    (h : s.Exact tx o ∧ s.group.batchesByOid.lookup o ≠ some []) :
    (s.enter b src t.keys).Exact tx o ∧
      lookup o (s.enter b src t.keys).group.batchesByOid ≠ some [] := by
  obtain ⟨⟨hnodup, hmem⟩, hne⟩ := h
  have helements : elements tx b = t.keys := by rw [elements, ht]
  have hlookup := lookup_enter s.group b src t.keys_nodup o
  rw [Exact]
  change lookup o (s.enter b src t.keys).group.batchesByOid = _ at hlookup
  simp only [hlookup, seen_enter]
  by_cases ho : o ∈ t.keys
  · simp only [if_pos ho, getD_some]
    refine ⟨⟨?_, fun b' ↦ ?_⟩, by simp⟩
    · refine nodup_append.mpr ⟨hnodup, nodup_singleton b, fun b' hb' c hc ↦ ?_⟩
      obtain rfl := mem_singleton.mp hc
      rintro rfl
      exact hb ((hmem b').mp hb').1
    · rw [mem_append, mem_singleton, hmem, or_comm, or_and_right]
      refine or_congr_left ⟨fun heq ↦ ⟨heq, ?_⟩, fun h ↦ h.1⟩
      rwa [heq, helements]
  · simp only [if_neg ho]
    refine ⟨⟨hnodup, fun b' ↦ ?_⟩, hne⟩
    rw [hmem, or_and_right, or_iff_right]
    rintro ⟨rfl, hin⟩
    rw [helements] at hin
    exact ho hin

/-! ## The recursion -/

instance (s : Closure) (b : BatchId) : Decidable (s.seen b) :=
  inferInstanceAs (Decidable (_ = true))

/-- The number of saved batches that were not entered. -/
def unseen (tx : Store) (s : Closure) : ℕ :=
  (tx.batches.keys.toFinset.filter fun b ↦ ¬s.seen b).card

/-- The dirty objects are those of the round, and there is fuel for all batches that were not
entered. -/
structure Ready (tx : Store) (u : Table Oid ObjConflictState) (fuel : ℕ) (s : Closure) : Prop where
  entries : ∀ o, dirtyEntry s.updObjects o = dirtyEntry u o
  fuel : s.unseen tx ≤ fuel

theorem Ready.explores (h : Ready tx u fuel s) (hs : Explores tx u root s s') :
    Ready tx u fuel s' where
  entries o := (hs.entries o).trans (h.entries o)
  fuel := by
    refine le_trans (Finset.card_le_card fun b hb ↦ ?_) h.fuel
    rw [Finset.mem_filter] at hb ⊢
    exact ⟨hb.1, fun hseen ↦ hb.2 (hs.mono b hseen)⟩

/-- A batch that is entered was saved. -/
theorem mem_filter_unseen (hb : ¬s.seen b)
    (ht : getBatchElements tx b = .ok t) :
    b ∈ tx.batches.keys.toFinset.filter fun b ↦ ¬s.seen b := by
  refine Finset.mem_filter.mpr ⟨mem_toFinset.mpr (mem_keys_iff.mpr ?_), hb⟩
  rw [getBatchElements, Store.getBatch] at ht
  split_ifs at ht
  rcases hinfo : tx.batches.lookup b with _ | info
  · simp [hinfo] at ht
  · exact ⟨info, rfl⟩

theorem Ready.enter (h : Ready tx u (fuel + 1) s) (hb : ¬s.seen b)
    (ht : getBatchElements tx b = .ok t) (src : BatchSource) :
    Ready tx u fuel (s.enter b src t.keys) where
  entries := h.entries
  fuel := by
    refine Nat.le_of_lt_succ (lt_of_lt_of_le (Finset.card_lt_card ?_) h.fuel)
    refine Finset.ssubset_iff_subset_ne.mpr ⟨fun b' hb' ↦ ?_, fun heq ↦ ?_⟩
    · rw [Finset.mem_filter, seen_enter, not_or] at hb'
      exact Finset.mem_filter.mpr ⟨hb'.1, hb'.2.2⟩
    · have hin := mem_filter_unseen hb ht
      rw [← heq, Finset.mem_filter, seen_enter] at hin
      exact hin.2 (.inl rfl)

/-- The object can be dealt with: what is followed from it is reached from `root`. -/
def Fits (tx : Store) (u : Table Oid ObjConflictState) (root : Oid) (o : Oid) : Prop :=
  (∀ b ∈ follows tx u o, Reaches tx u root b) ∧ (Loose tx u o → InClosure tx u root o) ∧
    (dirtyEntry u o = none → ∃ head, tx.getHead o = .ok head)

theorem dirtyEntry_insert (t : Table Oid ObjConflictState) {oid : Oid} {c : ObjConflictState}
    (hc : c.isAddedByCr = true) (ht : dirtyEntry t oid = none) (o : Oid) :
    dirtyEntry (t.insert oid c) o = dirtyEntry t o := by
  rw [dirtyEntry, lookup_insert_eq_ite]
  split
  · next heq =>
    rw [heq, ht, filter_some_neg (by simp [hc])]
  · rfl

/-- The list of a loose object is emptied. -/
theorem covers_loose (ho : Loose tx u o) (hin : InClosure tx u root o) :
    Covers tx u root s { s with group.batchesByOid := s.group.batchesByOid.insert o [] } o := by
  have hlookup : ∀ o', o' ≠ o → (s.group.batchesByOid.insert o []).lookup o' =
      s.group.batchesByOid.lookup o' := fun o' hne ↦ lookup_insert_ne hne
  refine ⟨⟨fun _ ↦ rfl, fun _ h ↦ h, fun _ h ↦ .inl h, fun _ h ↦ .inl h, fun o' ho' ↦ ?_,
    fun o' ho' h ↦ ?_, fun o' _ ↦ ?_⟩, ?_, fun _ ↦ lookup_insert _⟩
  · rw [mem_keys_iff, lookup_insert_eq_ite] at ho'
    split at ho'
    · next heq => exact .inr (heq ▸ hin)
    · exact .inl (mem_keys_iff.mpr ho')
  · have hne : o' ≠ o := fun heq ↦ ho' (heq ▸ ho)
    rw [Exact]
    rw [hlookup o' hne]
    exact h
  · by_cases heq : o' = o
    · rw [heq]
      exact .inl (lookup_insert _)
    · exact .inr ⟨hlookup o' heq, fun _ h ↦ .inl h⟩
  · rw [ho.2]
    exact forall_mem_nil _

/-- `processBatchId` can be called with this fuel. -/
def Processes (tx : Store) (u : Table Oid ObjConflictState) (root : Oid) (fuel : ℕ) : Prop :=
  ∀ b src s, Ready tx u fuel s → (b ≠ noBatchId → Reaches tx u root b ∧ ∃ o, b ∈ follows tx u o) →
    ∃ s', processBatchId tx fuel b src s = .ok () s' ∧ Explores tx u root s s' ∧
      (b ≠ noBatchId → s'.seen b)

theorem groupForWith_spec (hk : Known tx u) (hprocess : Processes tx u root fuel)
    (hs : Ready tx u fuel s) (ho : Fits tx u root o) :
    ∃ s', groupForWith (processBatchId tx fuel) tx o s = .ok () s' ∧ Covers tx u root s s' o := by
  rw [groupForWith, hs.entries o]
  rcases hentry : dirtyEntry u o with _ | c
  · obtain ⟨head, hhead⟩ := ho.2.2 hentry
    rw [addNewConflictObj, hhead]
    refine ⟨_, rfl, ⟨?_, fun _ h ↦ h, fun _ h ↦ .inl h, fun _ h ↦ .inl h, fun _ h ↦ .inl h,
      fun _ _ h ↦ h, fun _ _ ↦ .inr ⟨rfl, fun _ h ↦ .inl h⟩⟩, ?_, ?_⟩
    · exact dirtyEntry_insert s.updObjects rfl ((hs.entries o).trans hentry)
    · simp [follows, hentry]
    · simp [Loose, hentry]
  · obtain ⟨⟨l, r⟩, hheads⟩ := hk.heads o c hentry
    have hfollows : ∀ b, b ∈ follows tx u o ↔ (b = l ∨ b = r) ∧ b ≠ noBatchId := by
      intro b
      rw [follows, hentry]
      simp [hheads]
    dsimp only
    rw [hheads]
    dsimp only
    split
    · next hnone =>
      have hloose : Loose tx u o := by
        refine ⟨by simp [hentry], eq_nil_iff_forall_not_mem.mpr fun b hb ↦ ?_⟩
        obtain ⟨heq, hne⟩ := (hfollows b).mp hb
        rcases heq with rfl | rfl
        exacts [hne hnone.1, hne hnone.2]
      exact ⟨_, rfl, covers_loose hloose (ho.2.1 hloose)⟩
    · next hsome =>
      have hmem : ∀ b, b = l ∨ b = r → b ≠ noBatchId → Reaches tx u root b ∧
        ∃ o, b ∈ follows tx u o := fun b hb hne ↦
        ⟨ho.1 b ((hfollows b).mpr ⟨hb, hne⟩), o, (hfollows b).mpr ⟨hb, hne⟩⟩
      obtain ⟨s₁, hrun₁, hexp₁, hseen₁⟩ := hprocess l .localBatch s hs (hmem l (.inl rfl))
      obtain ⟨s₂, hrun₂, hexp₂, hseen₂⟩ :=
        hprocess r .remoteBatch s₁ (hs.explores hexp₁) (hmem r (.inr rfl))
      refine ⟨s₂, (bind_of_ok hrun₁).trans hrun₂, hexp₁.trans hexp₂, fun b hb ↦ ?_, fun hloose ↦ ?_⟩
      · obtain ⟨rfl | rfl, hne⟩ := (hfollows b).mp hb
        exacts [hexp₂.mono b (hseen₁ hne), hseen₂ hne]
      · have hnone := eq_nil_iff_forall_not_mem.mp hloose.2
        simp only [hfollows, not_and, not_not] at hnone
        exact absurd ⟨hnone l (.inl rfl), hnone r (.inr rfl)⟩ hsome

theorem forM_groupForWith_spec (hk : Known tx u) (hprocess : Processes tx u root fuel)
    {s : Closure} (hs : Ready tx u fuel s) (hl : ∀ o ∈ l, Fits tx u root o) :
    ∃ s', l.forM (groupForWith (processBatchId tx fuel) tx) s = .ok ⟨⟩ s' ∧
    Explores tx u root s s' ∧
      ∀ o ∈ l, Covers tx u root s s' o := by
  induction l generalizing s with
  | nil => exact ⟨s, rfl, Explores.refl s, forall_mem_nil _⟩
  | cons o l ih =>
    rw [forall_mem_cons] at hl
    obtain ⟨s₁, hrun₁, hcov₁⟩ := groupForWith_spec hk hprocess hs hl.1
    obtain ⟨s₂, hrun₂, hexp₂, hcov₂⟩ := ih (hs.explores hcov₁.toExplores) hl.2
    refine ⟨s₂, forM_cons_eq_ok_iff.mpr ⟨s₁, hrun₁, hrun₂⟩, hcov₁.toExplores.trans hexp₂, ?_⟩
    rw [forall_mem_cons]
    exact ⟨hcov₁.trans hexp₂, fun o ho ↦
      { hcov₂ o ho with toExplores := hcov₁.toExplores.trans (hcov₂ o ho).toExplores }⟩

theorem processes (hk : Known tx u) (root : Oid) (fuel : ℕ) : Processes tx u root fuel := by
  induction fuel with
  | zero =>
    intro b src s hs hb
    rw [processBatchId]
    split
    · next hskip => exact ⟨s, rfl, Explores.refl s, fun hne ↦ hskip.resolve_left hne⟩
    · next henter =>
      -- a batch is left to enter, so that the fuel is not used up
      obtain ⟨hne, hunseen⟩ := not_or.mp henter
      obtain ⟨-, o₀, ho₀⟩ := hb hne
      obtain ⟨t, ht, -⟩ := hk.batch o₀ b ho₀
      have hpos := Finset.card_pos.mpr ⟨b, mem_filter_unseen hunseen ht⟩
      exact absurd hs.fuel (Nat.not_le.mpr hpos)
  | succ fuel ih =>
    intro b src s hs hb
    rw [processBatchId]
    split
    · next hskip => exact ⟨s, rfl, Explores.refl s, fun hne ↦ hskip.resolve_left hne⟩
    · next henter =>
      obtain ⟨hne, hunseen⟩ := not_or.mp henter
      obtain ⟨hb, o₀, ho₀⟩ := hb hne
      obtain ⟨t, ht, -, hpulled⟩ := hk.batch o₀ b ho₀
      have helements : elements tx b = t.keys := by rw [elements, ht]
      obtain ⟨s', hrun, hexp, hcov⟩ := forM_groupForWith_spec hk ih (hs.enter hunseen ht src)
        (l := t.keys) fun o ho ↦ ⟨fun b' hb' ↦ .next hb (helements ▸ ho) hb',
          fun _ ↦ .inr ⟨b, hb, helements ▸ ho⟩, hpulled o ho⟩
      simp only [ht]
      refine ⟨s', hrun, ⟨hexp.entries, ?_, ?_, ?_, ?_, ?_, ?_⟩,
        fun _ ↦ hexp.mono b (seen_enter.mpr (.inl rfl))⟩
      · exact fun b' hb' ↦ hexp.mono b' (seen_enter.mpr (.inr hb'))
      · intro b' hb'
        rcases hexp.new b' hb' with hb' | hb'
        · rcases seen_enter.mp hb' with rfl | hb'
          exacts [Or.inr hb, .inl hb']
        · exact .inr hb'
      · intro b' hb'
        rcases hexp.closed b' hb' with hb' | hb'
        · rcases seen_enter.mp hb' with rfl | hb'
          · exact .inr fun o ho ↦ (hcov o (helements ▸ ho)).followed
          · exact .inl hb'
        · exact .inr hb'
      · intro o ho
        rcases hexp.pulled o ho with ho | ho
        · rw [mem_keys_iff] at ho ⊢
          change ∃ l, lookup o (s.group.enter b src t.keys).batchesByOid = some l at ho
          rw [lookup_enter _ _ _ t.keys_nodup] at ho
          split at ho
          · next hin => exact .inr (.inr ⟨b, hb, helements ▸ hin⟩)
          · exact .inl ho
        · exact .inr ho
      · exact fun o ho h ↦ hexp.exact o ho (exact_enter hunseen ht h)
      · intro o ho
        by_cases hmem : o ∈ t.keys
        · exact .inl ((hcov o hmem).emptied ho)
        · refine (hexp.loose o ho).imp_right fun hold ↦ ⟨?_, fun b' hb' ↦ ?_⟩
          · rw [hold.1]
            change lookup o (s.group.enter b src t.keys).batchesByOid = _
            rw [lookup_enter _ _ _ t.keys_nodup, if_neg hmem]
          · rcases hold.2 b' hb' with hb' | hb'
            · rcases seen_enter.mp hb' with rfl | hb'
              exacts [Or.inr (helements ▸ hmem), .inl hb']
            · exact .inr hb'

end Closure

/-! ## The group of an object -/

/-- What the group of a conflict is. -/
structure GroupOf (tx : Store) (u : Table Oid ObjConflictState) (oid : Oid) (g : CrGroup) :
    Prop where
  batches : ∀ b, (AList.lookup b g.batchSource).isSome ↔ Reaches tx u oid b
  oids : ∀ o, o ∈ g.batchesByOid.keys ↔ InClosure tx u oid o
  lists : ∀ o, ¬Loose tx u o → ((AList.lookup o g.batchesByOid).getD []).Nodup ∧
    ∀ b, b ∈ (AList.lookup o g.batchesByOid).getD [] ↔ (AList.lookup b g.batchSource).isSome ∧
      o ∈ elements tx b
  loose : ∀ o, Loose tx u o → (AList.lookup o g.batchesByOid).getD [] = []

section Groups

variable {tx : Store} {u u' : Table Oid ObjConflictState} {oid o root : Oid}

open Closure in
theorem groupFor_spec (hk : Known tx u) (hu : ∀ o, dirtyEntry u' o = dirtyEntry u o)
    (hdirty : (dirtyEntry u oid).isSome) :
    ∃ s', groupFor tx oid ⟨u', initCrGroup⟩ = .ok () s' ∧ GroupOf tx u oid s'.group ∧
      ∀ o, dirtyEntry s'.updObjects o = dirtyEntry u o := by
  have hready : Ready tx u tx.batches.entries.length ⟨u', initCrGroup⟩ := by
    refine ⟨hu, (Finset.card_filter_le _ _).trans ((toFinset_card_le _).trans ?_)⟩
    rw [AList.keys, keys, length_map]
  have hself : Loose tx u oid → InClosure tx u oid oid := fun h ↦ .inl ⟨h.2, rfl⟩
  obtain ⟨s', hrun, hcov⟩ := groupForWith_spec hk (processes hk oid _) hready
    ⟨fun b hb ↦ .start hb, hself, fun hnone ↦ by rw [hnone] at hdirty; contradiction⟩
  have hfresh : ∀ b, ¬seen ⟨u', initCrGroup⟩ b := fun b ↦ Bool.false_ne_true
  have hbatches : ∀ b, s'.seen b ↔ Reaches tx u oid b := by
    refine fun b ↦ ⟨fun hb ↦ (hcov.new b hb).resolve_left (hfresh b), fun hb ↦ ?_⟩
    induction hb with
    | start hb => exact hcov.followed _ hb
    | next _ ho hb' ih => exact (hcov.closed _ ih).resolve_left (hfresh _) _ ho _ hb'
  have hexact : ∀ o, ¬Loose tx u o → s'.Exact tx o ∧ s'.group.batchesByOid.lookup o ≠ some [] := by
    refine fun o ho ↦ hcov.exact o ho ⟨⟨nodup_nil, fun b ↦ ?_⟩, by simp [initCrGroup]⟩
    exact ⟨fun hb ↦ absurd hb not_mem_nil, fun hb ↦ absurd hb.1 (hfresh b)⟩
  refine ⟨s', hrun, ⟨hbatches, fun o ↦ ⟨fun ho ↦ ?_, fun ho ↦ ?_⟩, fun o ho ↦ (hexact o ho).1,
    fun o ho ↦ ?_⟩, fun o ↦ (hcov.entries o).trans (hu o)⟩
  · exact (hcov.pulled o ho).resolve_left not_mem_nil
  · rw [mem_keys_iff, ← isSome_iff_exists, isSome_iff_ne_none]
    intro hnone
    rcases ho with ⟨hnil, rfl⟩ | ⟨b, hb, ho⟩
    · rw [hcov.emptied ⟨hdirty, hnil⟩] at hnone
      contradiction
    · by_cases hl : Loose tx u o
      · rcases hcov.loose o hl with hempty | ⟨-, hnew⟩
        · rw [hempty] at hnone
          contradiction
        · exact (hnew b ((hbatches b).mpr hb)).elim (hfresh b) fun hnot ↦ hnot ho
      · have hmem := ((hexact o hl).1.2 b).mpr ⟨(hbatches b).mpr hb, ho⟩
        rw [hnone] at hmem
        exact not_mem_nil hmem
  · rcases hcov.loose o ho with hempty | ⟨hsame, -⟩
    · rw [hempty]
      rfl
    · rw [hsame]
      rfl

theorem Reaches.of_inClosure {b : BatchId} (hin : InClosure tx u root oid)
    (hb : Reaches tx u oid b) : Reaches tx u root b := by
  rcases hin with ⟨-, rfl⟩ | ⟨b₀, hb₀, ho⟩
  · exact hb
  · induction hb with
    | start hb => exact .next hb₀ ho hb
    | next _ ho' hb' ih => exact .next ih ho' hb'

theorem InClosure.trans (hin : InClosure tx u root oid) (ho : InClosure tx u oid o) :
    InClosure tx u root o := by
  rcases ho with ⟨-, rfl⟩ | ⟨b, hb, ho⟩
  · exact hin
  · exact .inr ⟨b, hb.of_inClosure hin, ho⟩

/-- A dirty object is in its own closure. -/
theorem InClosure.self (hk : Known tx u) (oid : Oid) : InClosure tx u oid oid := by
  rcases hnil : follows tx u oid with _ | ⟨b, l⟩
  · exact .inl ⟨hnil, rfl⟩
  · have hb : b ∈ follows tx u oid := by rw [hnil]; exact mem_cons_self
    obtain ⟨t, ht, hmem, -⟩ := hk.batch oid b hb
    refine .inr ⟨b, .start hb, ?_⟩
    rw [elements, ht]
    exact hmem

/-- The loop makes a group for each conflict that no earlier group has. -/
theorem groupConflictsFrom_spec (hk : Known tx u) (order : List Oid) (crData : GroupedCrData)
    {u' : Table Oid ObjConflictState} (hu : ∀ o, dirtyEntry u' o = dirtyEntry u o)
    (hdirty : ∀ oid ∈ order, (dirtyEntry u oid).isSome) :
    ∃ visits : List (Oid × CrGroup), ∃ oids u'',
      groupConflictsFrom tx order crData u' =
        .ok (⟨crData.groups ++ visits.map Prod.snd, oids⟩, u'') ∧
      (∀ v ∈ visits, v.1 ∈ order ∧ v.1 ∉ crData.oids ∧ GroupOf tx u v.1 v.2) ∧
      visits.Pairwise (fun v w ↦ w.1 ∉ v.2.batchesByOid.keys) ∧
      (∀ oid ∈ order, oid ∈ crData.oids ∨ ∃ v ∈ visits, oid ∈ v.2.batchesByOid.keys) ∧
      ∀ oid, order.head? = some oid → oid ∉ crData.oids → visits.head?.map Prod.fst = some oid := by
  induction order generalizing crData u' with
  | nil =>
    exact ⟨[], crData.oids, u', by rw [map_nil, append_nil]; rfl, by simp, .nil, by simp, by simp⟩
  | cons oid order ih =>
    rw [forall_mem_cons] at hdirty
    rw [groupConflictsFrom]
    split
    · next hold =>
      obtain ⟨visits, oids, u'', hrun, hgroups, hpair, hall, -⟩ := ih crData hu hdirty.2
      refine ⟨visits, oids, u'', hrun, fun v hv ↦ ?_, hpair, ?_, fun oid' hoid' hnot ↦ ?_⟩
      · exact ⟨mem_cons_of_mem _ (hgroups v hv).1, (hgroups v hv).2⟩
      · exact forall_mem_cons.mpr ⟨Or.inl hold, hall⟩
      · obtain rfl := some.inj hoid'
        exact absurd hold hnot
    · next hnew =>
      obtain ⟨s', hfor, hgroup, hentries⟩ := groupFor_spec hk hu hdirty.1
      obtain ⟨visits, oids, u'', hrun, hgroups, hpair, hall, -⟩ := ih
        ⟨crData.groups ++ [s'.group], crData.oids ++ s'.group.batchesByOid.keys⟩ hentries hdirty.2
      simp only [hfor]
      simp only [mem_append, not_or] at hgroups hall
      refine ⟨(oid, s'.group) :: visits, oids, u'', ?_, ?_, ?_, ?_, fun oid' hoid' _ ↦ hoid'⟩
      · rw [hrun, map_cons, append_assoc, singleton_append]
      · refine forall_mem_cons.mpr ⟨⟨mem_cons_self, hnew, hgroup⟩, fun v hv ↦ ?_⟩
        exact ⟨mem_cons_of_mem _ (hgroups v hv).1, (hgroups v hv).2.1.1, (hgroups v hv).2.2⟩
      · exact pairwise_cons.mpr ⟨fun v hv ↦ (hgroups v hv).2.1.2, hpair⟩
      · refine forall_mem_cons.mpr ⟨Or.inr ⟨_, mem_cons_self,
          (hgroup.oids oid).mpr (.self hk oid)⟩, ?_⟩
        intro oid' hoid'
        rcases hall oid' hoid' with (hold | hin) | ⟨v, hv, hin⟩
        · exact .inl hold
        · exact .inr ⟨_, mem_cons_self, hin⟩
        · exact .inr ⟨v, mem_cons_of_mem _ hv, hin⟩

/-! ## Disjoint closures -/

/-- Every conflict is in one group, groups have no object in common, and the elements of the batches
that are followed from an object of a group are in the group. -/
structure Partitions (tx : Store) (u : Table Oid ObjConflictState) (conflicts : List Oid)
    (groups : List CrGroup) : Prop where
  once : ∀ oid ∈ conflicts, groups.countP (fun g ↦ oid ∈ g.batchesByOid.keys) = 1
  disjoint : groups.Pairwise fun g g' ↦ ∀ o, o ∈ g.batchesByOid.keys → o ∉ g'.batchesByOid.keys
  closed : ∀ g ∈ groups, ∀ o ∈ g.batchesByOid.keys, ∀ b ∈ follows tx u o, ∀ o' ∈ elements tx b,
    o' ∈ g.batchesByOid.keys

theorem countP_eq_one {α : Type} {p : α → Bool} {l : List α} (h : l.Pairwise fun a b ↦ p a → ¬p b)
    (hex : ∃ a ∈ l, p a) : l.countP p = 1 := by
  induction l with
  | nil => simp at hex
  | cons a l ih =>
    rw [pairwise_cons] at h
    by_cases ha : p a
    · rw [countP_cons_of_pos ha, countP_eq_zero.mpr fun b hb ↦ h.1 b hb ha]
    · rw [countP_cons_of_neg ha]
      refine ih h.2 ?_
      obtain ⟨b, hb, hpb⟩ := hex
      rcases mem_cons.mp hb with rfl | hb
      exacts [absurd hpb ha, ⟨b, hb, hpb⟩]

/-- **Conflict groups are disjoint closures**, whatever the order in which conflicts are visited, if
and only if a conflict is in the closure of another one as soon as the two closures have an object
in common. -/
theorem groupConflicts_partitions_iff (hk : Known tx u) {conflicts : List Oid}
    (hdirty : ∀ oid ∈ conflicts, (dirtyEntry u oid).isSome) :
    (∀ order, order.Perm conflicts → ∃ crData u', groupConflicts tx order u = .ok (crData, u') ∧
      Partitions tx u conflicts crData.groups) ↔
    ∀ oid ∈ conflicts, ∀ oid' ∈ conflicts, (∃ o, InClosure tx u oid o ∧ InClosure tx u oid' o) →
      InClosure tx u oid oid' := by
  constructor
  · rintro h oid hoid oid' hoid' ⟨o, ho, ho'⟩
    -- the first conflict visited makes a group, and the other one is in some group
    have hperm : (oid :: conflicts.erase oid).Perm conflicts := (perm_cons_erase hoid).symm
    obtain ⟨crData, u₁, hrun₁, hpart⟩ := h _ hperm
    obtain ⟨visits, oids, u₂, hrun₂, hgroups, -, hall, hhead⟩ := groupConflictsFrom_spec hk
      (oid :: conflicts.erase oid) ⟨[], []⟩ (fun _ ↦ rfl) fun oid hoid ↦
        hdirty oid (hperm.mem_iff.mp hoid)
    obtain rfl := congrArg Prod.fst (Except.ok.inj (hrun₁.symm.trans hrun₂))
    obtain ⟨⟨root, g⟩, hvisit, rfl⟩ := Option.map_eq_some_iff.mp (hhead oid rfl not_mem_nil)
    obtain ⟨vs, rfl⟩ := head?_eq_some_iff.mp hvisit
    obtain ⟨v, hv, hin⟩ := (hall oid' (hperm.mem_iff.mpr hoid')).resolve_left not_mem_nil
    obtain ⟨-, -, hgroup⟩ := hgroups v hv
    rcases mem_cons.mp hv with rfl | hv
    · exact (hgroup.oids oid').mp hin
    · have hov : o ∈ v.2.batchesByOid.keys :=
        (hgroup.oids o).mpr (((hgroup.oids oid').mp hin).trans ho')
      have hog : o ∈ g.batchesByOid.keys := ((hgroups _ mem_cons_self).2.2.oids o).mpr ho
      have hdisjoint := hpart.disjoint
      rw [nil_append, map_cons, pairwise_cons] at hdisjoint
      exact absurd hov (hdisjoint.1 v.2 (mem_map_of_mem hv) o hog)
  · intro h order hperm
    obtain ⟨visits, oids, u', hrun, hgroups, hpair, hall, -⟩ :=
      groupConflictsFrom_spec hk order ⟨[], []⟩ (fun _ ↦ rfl) fun oid hoid ↦
        hdirty oid (hperm.mem_iff.mp hoid)
    have hdisjoint : (visits.map Prod.snd).Pairwise fun g g' : CrGroup ↦
        ∀ o, o ∈ g.batchesByOid.keys → o ∉ g'.batchesByOid.keys := by
      refine pairwise_map.mpr (hpair.imp_of_mem fun {v w} hv hw hnot o hov how ↦ hnot ?_)
      obtain ⟨hv, -, hgv⟩ := hgroups v hv
      obtain ⟨hw, -, hgw⟩ := hgroups w hw
      exact (hgv.oids _).mpr (h v.1 (hperm.mem_iff.mp hv) w.1 (hperm.mem_iff.mp hw)
        ⟨o, (hgv.oids o).mp hov, (hgw.oids o).mp how⟩)
    refine ⟨_, u', hrun, fun oid hoid ↦ ?_, hdisjoint, fun g hg o ho b hb o' ho' ↦ ?_⟩
    · refine countP_eq_one ?_ ?_
      · exact hdisjoint.imp fun {g g'} hgg' ho ↦ by simpa using hgg' oid (by simpa using ho)
      · obtain ⟨v, hv, hin⟩ := (hall oid (hperm.mem_iff.mpr hoid)).resolve_left not_mem_nil
        exact ⟨v.2, mem_map_of_mem hv, by simpa using hin⟩
    · obtain ⟨v, hv, rfl⟩ := mem_map.mp hg
      obtain ⟨-, -, hgroup⟩ := hgroups v hv
      exact (hgroup.oids o').mpr (((hgroup.oids o).mp ho).trans (.inr ⟨b, .start hb, ho'⟩))

/-- A node of a batch. -/
def nodeIn (batchId : BatchId) : DagNode := ⟨0, [], logRecKey logDataPrefix 1 1, batchId, false⟩

/-- Two objects in batches of their own, which share the object `x`. -/
def sharedStore : Store :=
  { Store.empty with
    nodes := AList.insert ([97], [1]) (nodeIn 1) (AList.insert ([97], [2]) (nodeIn 0)
      (AList.insert ([98], [1]) (nodeIn 2) (AList.insert ([98], [2]) (nodeIn 0) ∅)))
    heads := AList.insert [120] [3] ∅
    batches := AList.insert 1 ⟨some (AList.insert [97] [1] (AList.insert [120] [3] ∅)), none, 2⟩
      (AList.insert 2 ⟨some (AList.insert [98] [1] (AList.insert [120] [3] ∅)), none, 2⟩ ∅) }

def inConflict : ObjConflictState := ⟨false, true, [1], [2], noVersion, none⟩

/-- The objects `a` and `b` were changed in one batch, `c` outside of any. -/
def joinedStore : Store :=
  { Store.empty with
    nodes := AList.insert ([97], [1]) (nodeIn 1) (AList.insert ([97], [2]) (nodeIn 0)
      (AList.insert ([98], [1]) (nodeIn 1) (AList.insert ([98], [2]) (nodeIn 0)
        (AList.insert ([99], [1]) (nodeIn 0) (AList.insert ([99], [2]) (nodeIn 0) ∅)))))
    heads := AList.insert [120] [3] ∅
    batches := AList.insert 1 ⟨some (AList.insert [97] [1] (AList.insert [98] [1]
      (AList.insert [120] [3] ∅))), none, 3⟩ ∅ }

def threeConflicts : Table Oid ObjConflictState :=
  AList.insert [97] inConflict (AList.insert [98] inConflict (AList.insert [99] inConflict ∅))

theorem dirtyEntry_threeConflicts {oid : Oid} (h : (dirtyEntry threeConflicts oid).isSome) :
    oid ∈ [[97], [98], [99]] := by
  by_contra hnot
  simp only [mem_cons, not_mem_nil, or_false, not_or] at hnot
  rw [dirtyEntry, threeConflicts, lookup_insert_eq_ite, if_neg hnot.1, lookup_insert_eq_ite,
    if_neg hnot.2.1, lookup_insert_eq_ite, if_neg hnot.2.2] at h
  cases h

theorem follows_threeConflicts {oid : Oid} {b : BatchId}
    (hb : b ∈ follows joinedStore threeConflicts oid) : b = 1 ∧ oid ∈ [[97], [98]] := by
  rcases hc : dirtyEntry threeConflicts oid with _ | c
  · rw [follows, hc] at hb
    exact absurd hb not_mem_nil
  · have hall : ∀ oid ∈ [[97], [98], [99]], ∀ b ∈ follows joinedStore threeConflicts oid,
        b = 1 ∧ oid ∈ [[97], [98]] := by decide
    exact hall oid (dirtyEntry_threeConflicts (isSome_of_eq_some hc)) b hb

theorem known_threeConflicts : Known joinedStore threeConflicts := by
  constructor
  · intro oid c hc
    have hmem := dirtyEntry_threeConflicts (isSome_of_eq_some hc)
    have hall : ∀ oid ∈ [[97], [98], [99]], (dirtyEntry threeConflicts oid).all fun c ↦
        (headBatches joinedStore oid c).toOption.isSome := by decide
    have hsome := hall oid hmem
    rcases hp : headBatches joinedStore oid c with e | p
    · rw [hc, Option.all_some, hp] at hsome
      cases hsome
    · exact ⟨p, rfl⟩
  · intro oid b hb
    obtain ⟨rfl, hoid⟩ := follows_threeConflicts hb
    refine ⟨_, rfl, ?_, fun o ho hnone ↦ ?_⟩
    · exact (by decide : ∀ oid : Oid, oid ∈ [[97], [98]] → oid ∈ [[97], [98], [120]]) oid hoid
    · rcases mem_cons.mp ho with rfl | ho
      · contradiction
      · rcases mem_cons.mp ho with rfl | ho
        · contradiction
        · obtain rfl := mem_singleton.mp ho
          exact ⟨[3], rfl⟩

theorem reaches_threeConflicts {oid : Oid} {b : BatchId}
    (h : Reaches joinedStore threeConflicts oid b) : b = 1 ∧ oid ∈ [[97], [98]] := by
  induction h with
  | start hb => exact follows_threeConflicts hb
  | next _ _ hb ih => exact ⟨(follows_threeConflicts hb).1, ih.2⟩

theorem closure_threeConflicts {oid o : Oid} (hoid : oid ∈ [[97], [98], [99]])
    (h : InClosure joinedStore threeConflicts oid o) :
    (oid = [99] ∧ o = [99]) ∨ oid ∈ [[97], [98]] ∧ o ∈ elements joinedStore 1 := by
  rcases h with ⟨hnil, rfl⟩ | ⟨b, hb, ho⟩
  · have hloose : ∀ oid ∈ [[97], [98], [99]], follows joinedStore threeConflicts oid = [] →
      oid = [99] := by
      decide
    exact .inl ⟨hloose o hoid hnil, hloose o hoid hnil⟩
  · obtain ⟨rfl, hmem⟩ := reaches_threeConflicts hb
    exact .inr ⟨hmem, ho⟩

/-- The first two conflicts are in one group, with the object `x` of their batch, and the third one
is in a group of its own. -/
theorem threeConflicts_partition : ∃ crData u',
    groupConflicts joinedStore [[99], [97], [98]] threeConflicts = .ok (crData, u') ∧
      Partitions joinedStore threeConflicts [[97], [98], [99]] crData.groups := by
  refine (groupConflicts_partitions_iff known_threeConflicts (by decide)).mpr ?_ _ (by decide)
  rintro oid hoid oid' hoid' ⟨o, ho, ho'⟩
  rcases closure_threeConflicts hoid ho with ⟨rfl, rfl⟩ | ⟨hmem, helem⟩
  · rcases closure_threeConflicts hoid' ho' with ⟨rfl, -⟩ | ⟨-, hx⟩
    · exact .self known_threeConflicts _
    · exact absurd hx (by decide)
  · rcases closure_threeConflicts hoid' ho' with ⟨rfl, rfl⟩ | ⟨hmem', -⟩
    · exact absurd helem (by decide)
    · have hboth : ∀ oid ∈ [[97], [98]], 1 ∈ follows joinedStore threeConflicts oid ∧
          oid ∈ elements joinedStore 1 := by decide
      exact .inr ⟨1, .start (hboth oid hmem).1, (hboth oid' hmem').2⟩

theorem shared_object_in_two_groups : ∃ g g' oids u', groupConflicts sharedStore [[97], [98]]
    (AList.insert [97] inConflict (AList.insert [98] inConflict ∅)) = .ok (⟨[g, g'], oids⟩, u') ∧
      [120] ∈ g.batchesByOid.keys ∧ [120] ∈ g'.batchesByOid.keys :=
  ⟨_, _, _, _, rfl, by decide, by decide⟩

/-! ## The batches of an object -/

/-- **The batches listed with an object are exact** if and only if every dirty element of a batch
that is followed from a conflict follows a batch itself: the list of any other one is emptied. -/
theorem batchesByOid_exact_iff (hk : Known tx u) {conflicts : List Oid}
    (hdirty : ∀ oid ∈ conflicts, (dirtyEntry u oid).isSome) :
    ∃ crData u', groupConflicts tx conflicts u = .ok (crData, u') ∧
      ((∀ g ∈ crData.groups, ∀ o ∈ g.batchesByOid.keys,
        ((AList.lookup o g.batchesByOid).getD []).Nodup ∧
          ∀ b, b ∈ (AList.lookup o g.batchesByOid).getD [] ↔ (AList.lookup b g.batchSource).isSome ∧
            o ∈ elements tx b) ↔
      ∀ oid ∈ conflicts, ∀ b, Reaches tx u oid b → ∀ o ∈ elements tx b, (dirtyEntry u o).isSome →
        follows tx u o ≠ []) := by
  obtain ⟨visits, oids, u', hrun, hgroups, -, hall, -⟩ :=
    groupConflictsFrom_spec hk conflicts ⟨[], []⟩ (fun _ ↦ rfl) hdirty
  refine ⟨_, u', hrun, fun h oid hoid b hb o ho hsome hnil ↦ ?_, fun h g hg o ho ↦ ?_⟩
  · obtain ⟨v, hv, hin⟩ := (hall oid hoid).resolve_left not_mem_nil
    obtain ⟨-, -, hgroup⟩ := hgroups v hv
    have hreach : Reaches tx u v.1 b := hb.of_inClosure ((hgroup.oids oid).mp hin)
    have hlist := ((h v.2 (mem_map_of_mem hv)
      o ((hgroup.oids o).mpr (.inr ⟨b, hreach, ho⟩))).2 b).mpr ⟨(hgroup.batches b).mpr hreach, ho⟩
    rw [hgroup.loose o ⟨hsome, hnil⟩] at hlist
    exact not_mem_nil hlist
  · obtain ⟨v, hv, rfl⟩ := mem_map.mp hg
    obtain ⟨hroot, -, hgroup⟩ := hgroups v hv
    by_cases hl : Loose tx u o
    · rw [hgroup.loose o hl]
      refine ⟨nodup_nil, fun b ↦ ⟨fun hb ↦ absurd hb not_mem_nil, fun ⟨hb, hmem⟩ ↦ ?_⟩⟩
      exact absurd hl.2 (h v.1 hroot b ((hgroup.batches b).mp hb) o hmem hl.1)
    · exact hgroup.lists o hl

theorem threeConflicts_lists_exact : ∃ crData u',
    groupConflicts joinedStore [[97], [98], [99]] threeConflicts = .ok (crData, u') ∧
      ∀ g ∈ crData.groups, ∀ o ∈ g.batchesByOid.keys, ∀ b, b ∈
        (AList.lookup o g.batchesByOid).getD [] ↔ (AList.lookup b g.batchSource).isSome ∧
          o ∈ elements joinedStore b := by
  have hdirty : ∀ oid ∈ [[97], [98], [99]], (dirtyEntry threeConflicts oid).isSome := by decide
  obtain ⟨crData, u', hrun, hiff⟩ := batchesByOid_exact_iff known_threeConflicts hdirty
  refine ⟨crData, u', hrun, fun g hg o ho ↦ (hiff.mpr ?_ g hg o ho).2⟩
  intro _ _ b hb
  obtain ⟨rfl, -⟩ := reaches_threeConflicts hb
  decide

/-- The object `x` was changed as well, outside of any batch: the batch that it is an element of is
not listed with it. -/
theorem loose_object_loses_batch : ∃ g oids u', groupConflicts
    { sharedStore with nodes := AList.insert ([120], [4]) (nodeIn 0) sharedStore.nodes } [[97]]
    (AList.insert [120] ⟨false, false, [4], [3], noVersion, none⟩ (AList.insert [97] inConflict ∅))
    = .ok (⟨[g], oids⟩, u') ∧
      (g.batchSource.lookup 1).isSome ∧ [120] ∈ elements sharedStore 1 ∧
      g.batchesByOid.lookup [120] = some [] :=
  ⟨_, _, _, rfl, by decide, by decide, by decide⟩

end Groups

end Vanadium.Vsync
