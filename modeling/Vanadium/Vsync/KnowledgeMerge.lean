import Vanadium.Vsync.Initiator

/-!
# Merging what another device knows

A generation vector gives each device the last generation that is known of it, or nothing. Vectors
are compared at each device, where nothing is below every generation (`GenVector.known`); merging
takes the larger of the two.

At the end of a round `updateSyncSt` merges the vectors of the responder, a prefix after the other,
into those that are stored. A stored prefix gets the vectors of all prefixes of it. A prefix that is
not stored yet gets its own vector only, and those of shorter prefixes that happen to be visited
later: nothing of what was stored for a shorter prefix, and so for the keys below it, goes in.
-/

namespace Vanadium.Vsync

open Foundations Table Program List AList GenVector Except
open Option hiding all_eq_true bind_apply map_map mem_map pure_apply
open EStateM (Result)
open SyncService (sgOID)

/-! ## Vectors as functions -/

namespace GenVector

/-- The last generation known of each device. -/
def known (gv : GenVector) (dev : DevId) : WithBot ℕ :=
  match AList.lookup dev gv with
  | none => ⊥
  | some gen => WithBot.some gen

variable {a b : GenVector} {dev : DevId} {gen : ℕ} {res : ℤ}

theorem known_of_none (h : a.lookup dev = none) : a.known dev = ⊥ := by
  rw [known, h]

theorem known_of_some (h : a.lookup dev = some gen) : a.known dev = WithBot.some gen := by
  rw [known, h]

theorem known_erase (a : GenVector) (id dev : DevId) :
    known (a.erase id) dev = if dev = id then ⊥ else a.known dev := by
  rw [known, lookup_erase_eq_ite]
  by_cases h : dev = id
  · rw [if_pos h, if_pos h]
  · rw [if_neg h, if_neg h, known]

/-! ## `Compare` -/

theorem compareGen_cases (b : GenVector) (id : DevId) (agen : ℕ) :
    (b.compareGen id agen = 1 ∧ b.known id < WithBot.some agen) ∨
      (b.compareGen id agen = -1 ∧ WithBot.some agen < b.known id) ∨
      (b.compareGen id agen = 0 ∧ b.known id = WithBot.some agen) := by
  rw [compareGen]
  rcases h : b.lookup id with _ | bgen
  · exact .inl ⟨rfl, by rw [known_of_none h]; exact WithBot.bot_lt_coe _⟩
  · rw [known_of_some h]
    rcases lt_trichotomy bgen agen with hlt | rfl | hlt
    · exact .inl ⟨if_pos hlt, WithBot.coe_lt_coe.mpr hlt⟩
    · simp
    · refine .inr (.inl ⟨?_, WithBot.coe_lt_coe.mpr hlt⟩)
      simp only [if_neg (Nat.lt_asymm hlt), if_pos hlt]

/-- Once a difference was seen, the first loop only looks for one in the other direction. -/
theorem compareFrom_of_ne (b : GenVector) (es : List (Sigma fun _ : DevId ↦ ℕ))
    (hres : res = 1 ∨ res = -1) :
    ((∃ e ∈ es, b.compareGen e.1 e.2 = -res) → compareFrom b es res = none) ∧
      ((¬∃ e ∈ es, b.compareGen e.1 e.2 = -res) → compareFrom b es res = some res) := by
  induction es with
  | nil => simp [compareFrom]
  | cons e es ih =>
    have hset : ¬(res = -2 ∨ res = 0) := by rcases hres with rfl | rfl <;> decide
    have hcases : b.compareGen e.1 e.2 = -res ∨ b.compareGen e.1 e.2 = res ∨
      b.compareGen e.1 e.2 = 0 := by
      rcases compareGen_cases b e.1 e.2 with ⟨h, -⟩ | ⟨h, -⟩ | ⟨h, -⟩ <;>
        rcases hres with rfl | rfl <;> simp [h]
    rw [compareFrom, if_neg hset, exists_mem_cons_iff]
    by_cases hcur : b.compareGen e.1 e.2 = -res
    · have hother : res ≠ b.compareGen e.1 e.2 ∧ b.compareGen e.1 e.2 ≠ 0 := by
        rw [hcur]
        rcases hres with rfl | rfl <;> decide
      rw [if_pos hother]
      exact ⟨fun _ ↦ rfl, fun hnone ↦ absurd (.inl hcur) hnone⟩
    · have hsame : ¬(res ≠ b.compareGen e.1 e.2 ∧ b.compareGen e.1 e.2 ≠ 0) := by
        rintro ⟨hne, hzero⟩
        rcases hcases with h | h | h
        exacts [hcur h, hne h.symm, hzero h]
      rw [if_neg hsame, or_iff_right hcur]
      exact ih

/-- The first loop: some generation is larger, some is smaller, or all are the same. -/
theorem compareFrom_eq (b : GenVector) (es : List (Sigma fun _ : DevId ↦ ℕ))
    (hres : res = -2 ∨ res = 0) {up down : Prop} (hup : up ↔ ∃ e ∈ es, b.compareGen e.1 e.2 = 1)
    (hdown : down ↔ ∃ e ∈ es, b.compareGen e.1 e.2 = -1) :
    (up → down → compareFrom b es res = none) ∧ (up → ¬down → compareFrom b es res = some 1) ∧
      (¬up → down → compareFrom b es res = some (-1)) ∧
      (¬up → ¬down → compareFrom b es res = some (if es = [] then res else 0)) := by
  induction es generalizing res up down with
  | nil => simp [hup, hdown, compareFrom]
  | cons e es ih =>
    rw [compareFrom, if_pos hres, hup, hdown]
    rcases compareGen_cases b e.1 e.2 with ⟨h, -⟩ | ⟨h, -⟩ | ⟨h, -⟩
    · simpa [h] using compareFrom_of_ne b es (.inl rfl)
    · simpa [h] using compareFrom_of_ne b es (.inr rfl)
    · have hrest := ih (.inr rfl) Iff.rfl Iff.rfl
      simpa [h] using hrest

theorem compareGen_iff : (b.compareGen dev gen = 1 ↔ b.known dev < WithBot.some gen) ∧
    (b.compareGen dev gen = -1 ↔ WithBot.some gen < b.known dev) := by
  rcases compareGen_cases b dev gen with ⟨h, hlt⟩ | ⟨h, hgt⟩ | ⟨h, heq⟩ <;> rw [h]
  · exact ⟨iff_of_true rfl hlt, iff_of_false (by decide) hlt.not_gt⟩
  · exact ⟨iff_of_false (by decide) hgt.not_gt, iff_of_true rfl hgt⟩
  · exact ⟨iff_of_false (by decide) heq.not_lt, iff_of_false (by decide) heq.not_gt⟩

theorem exists_larger_iff : (∃ e ∈ a.entries, b.compareGen e.1 e.2 = 1) ↔ ¬a.known ≤ b.known := by
  rw [Pi.le_def]
  push Not
  simp only [compareGen_iff.1]
  constructor
  · rintro ⟨⟨dev, gen⟩, he, h⟩
    exact ⟨dev, by rwa [known_of_some (mem_entries_iff.mp he)]⟩
  · rintro ⟨dev, hlt⟩
    rcases hdev : a.lookup dev with _ | gen
    · rw [known_of_none hdev] at hlt
      exact absurd hlt not_lt_bot
    · rw [known_of_some hdev] at hlt
      exact ⟨⟨dev, gen⟩, mem_entries_iff.mpr hdev, hlt⟩

/-- Some generation is smaller, or a device is missing. -/
theorem exists_smaller_or_missing_iff :
    ((∃ e ∈ a.entries, b.compareGen e.1 e.2 = -1) ∨
      ¬b.entries.all (fun e ↦ (a.lookup e.1).isSome) = true) ↔ ¬b.known ≤ a.known := by
  rw [Pi.le_def, all_eq_true]
  push Not
  simp only [compareGen_iff.2]
  constructor
  · rintro (⟨⟨dev, gen⟩, he, h⟩ | ⟨⟨dev, gen⟩, he, h⟩)
    · exact ⟨dev, by rwa [known_of_some (mem_entries_iff.mp he)]⟩
    · refine ⟨dev, ?_⟩
      rw [known_of_some (mem_entries_iff.mp he), known_of_none (not_isSome_iff_eq_none.mp h)]
      exact WithBot.bot_lt_coe _
  · rintro ⟨dev, hlt⟩
    rcases hdev : a.lookup dev with _ | gen
    · rcases hb : b.lookup dev with _ | bgen
      · rw [known_of_none hb] at hlt
        exact absurd hlt not_lt_bot
      · refine .inr ⟨⟨dev, bgen⟩, mem_entries_iff.mpr hb, ?_⟩
        rw [hdev]
        exact Bool.false_ne_true
    · rw [known_of_some hdev] at hlt
      exact .inl ⟨⟨dev, gen⟩, mem_entries_iff.mpr hdev, hlt⟩

open Classical in
/-- `Compare` in one equation. -/
theorem compare_eq (a b : GenVector) : a.compare b =
    if a.known ≤ b.known then if b.known ≤ a.known then 0 else -1
    else if b.known ≤ a.known then 1 else 2 := by
  have hle : a.known ≤ b.known ↔ ¬∃ e ∈ a.entries, b.compareGen e.1 e.2 = 1 := by
    rw [exists_larger_iff, not_not]
  have hge : b.known ≤ a.known ↔ ¬((∃ e ∈ a.entries, b.compareGen e.1 e.2 = -1) ∨
      ¬b.entries.all (fun e ↦ (a.lookup e.1).isSome) = true) := by
    rw [exists_smaller_or_missing_iff, not_not]
  obtain ⟨hboth, hup, hdown, hsame⟩ := compareFrom_eq b a.entries (.inl rfl) Iff.rfl Iff.rfl
  rw [compare]
  by_cases hempty : a.entries = [] ∧ b.entries = []
  · simp only [hle, hge, hempty.1, hempty.2]
    simp
  · rw [if_neg hempty]
    simp only [hle, hge]
    by_cases hlarger : ∃ e ∈ a.entries, b.compareGen e.1 e.2 = 1 <;>
      by_cases hsmaller : ∃ e ∈ a.entries, b.compareGen e.1 e.2 = -1
    · rw [hboth hlarger hsmaller, if_neg (not_not.mpr hlarger),
        if_neg (not_not.mpr (.inl hsmaller))]
    · rw [hup hlarger hsmaller, if_neg (not_not.mpr hlarger)]
      by_cases hall : b.entries.all (fun e ↦ (a.lookup e.1).isSome) = true <;> simp [hsmaller, hall]
    · rw [hdown hlarger hsmaller, if_pos hlarger, if_neg (not_not.mpr (.inl hsmaller))]
      simp
    · rw [hsame hlarger hsmaller, if_pos hlarger]
      by_cases hall : b.entries.all (fun e ↦ (a.lookup e.1).isSome) = true
      · -- a vector with no entries has those of the other one only if that has none either
        have hne : a.entries ≠ [] := by
          intro ha
          refine hempty ⟨ha, eq_nil_iff_forall_not_mem.mpr fun e he ↦ ?_⟩
          obtain ⟨gen, hgen⟩ := isSome_iff_exists.mp (all_eq_true.mp hall e he)
          rw [← mem_entries_iff, ha] at hgen
          exact nomatch hgen
        simp [hsmaller, hall, hne]
      · have hres : (if a.entries = [] then -2 else 0 : ℤ) ≠ 1 := by
          split <;> decide
        simp [hall, hres]

theorem compare_exact (a b : GenVector) :
    (a.compare b = 0 ↔ a.known = b.known) ∧ (a.compare b = -1 ↔ a.known < b.known) ∧
      (a.compare b = 1 ↔ b.known < a.known) ∧
      (a.compare b = 2 ↔ ¬a.known ≤ b.known ∧ ¬b.known ≤ a.known) := by
  have heq : a.known = b.known ↔ a.known ≤ b.known ∧ b.known ≤ a.known := le_antisymm_iff
  rw [compare_eq, heq, lt_iff_le_not_ge, lt_iff_le_not_ge]
  by_cases hle : a.known ≤ b.known <;> by_cases hge : b.known ≤ a.known <;> simp [hle, hge]

/-! ## Merging two vectors -/

/-- One entry of the vector that is merged in. -/
theorem known_mergeEntry (gv : GenVector) (id : DevId) (gen : ℕ) (dev : DevId) :
    known (match gv.lookup id with
      | some g => if g < gen then gv.insert id gen else gv
      | none => gv.insert id gen) dev =
      if dev = id then gv.known dev ⊔ WithBot.some gen else gv.known dev := by
  rcases eq_or_ne dev id with rfl | h
  · rw [if_pos rfl]
    have hinsert : known (gv.insert dev gen) dev = WithBot.some gen :=
      known_of_some (lookup_insert gv)
    rcases hid : gv.lookup dev with _ | g
    · rw [known_of_none hid, bot_sup_eq]
      exact hinsert
    · rw [known_of_some hid]
      dsimp only
      split
      · next hlt => rw [hinsert, sup_eq_right.mpr (WithBot.coe_le_coe.mpr hlt.le)]
      · next hge => rw [known_of_some hid,
          sup_eq_left.mpr (WithBot.coe_le_coe.mpr (Nat.le_of_not_lt hge))]
  · have hinsert : known (gv.insert id gen) dev = gv.known dev := by
      rw [known, lookup_insert_ne h, known]
    rw [if_neg h]
    split
    · split
      · exact hinsert
      · rfl
    · exact hinsert

/-- **Merging takes the larger generation of each device.** -/
theorem known_mergeGenVectors (a b : GenVector) :
    (mergeGenVectors a b).known = a.known ⊔ b.known := by
  have key : ∀ (l : List (Sigma fun _ : DevId ↦ ℕ)) (gv : GenVector) (dev : DevId), l.NodupKeys →
      known (l.foldl (fun (gv : GenVector) e ↦
        match gv.lookup e.1 with
        | some gen => if gen < e.2 then gv.insert e.1 e.2 else gv
        | none => gv.insert e.1 e.2) gv) dev =
        gv.known dev ⊔ (match l.dlookup dev with
          | none => ⊥
          | some gen => WithBot.some gen) := by
    intro l
    induction l with
    | nil => simp
    | cons e l ih =>
      intro gv dev hnodup
      rw [nodupKeys_cons] at hnodup
      rw [foldl_cons, ih _ dev hnodup.2, known_mergeEntry]
      by_cases h : dev = e.1
      · subst h
        rw [if_pos rfl, dlookup_cons_eq, dlookup_eq_none.mpr hnodup.1, sup_bot_eq]
      · rw [if_neg h, dlookup_cons_ne _ _ h]
  funext dev
  exact key b.entries a dev b.nodupKeys

/-- **Merging is the join of the order that `Compare` decides**, for any number of vectors. -/
theorem compare_foldl_merge_le_iff (l : List GenVector) (a b : GenVector) :
    (l.foldl mergeGenVectors a).compare b ≤ 0 ↔ ∀ v ∈ a :: l, v.compare b ≤ 0 := by
  have hle (a : GenVector) : a.compare b ≤ 0 ↔ a.known ≤ b.known := by
    rw [compare_eq]
    by_cases hle : a.known ≤ b.known <;> by_cases hge : b.known ≤ a.known <;> simp [hle, hge]
  simp only [hle]
  induction l generalizing a with
  | nil => simp
  | cons v l ih => exact (ih _).trans (by simp [known_mergeGenVectors, and_assoc])

end GenVector

/-! ## Merging all vectors of a responder -/

/-- The loop of `updateSyncSt` as far as the vectors are concerned. -/
def mergeAll (remote : List (Prefix × GenVector)) (k : Knowledge) : Knowledge :=
  remote.foldl (fun k e ↦ mergeRemote k e.1 e.2) k

/-- What the vectors of a responder say about a prefix: those of its prefixes count. -/
def reported (remote : List (Prefix × GenVector)) (p : Prefix) : DevId → WithBot ℕ :=
  remote.foldr (fun e acc ↦ (if e.1 <+: p then e.2.known else ⊥) ⊔ acc) ⊥

/-- The vectors of a table as functions. -/
def Knowledge.vector (k : Knowledge) (p : Prefix) : Option (DevId → WithBot ℕ) :=
  (AList.lookup p k).map GenVector.known

section Merge

variable {k : Knowledge} {p : Prefix} {remote : List (Prefix × GenVector)} {f : DevId → WithBot ℕ}

theorem vector_mergeRemote (k : Knowledge) (r : Prefix) (v : GenVector) (p : Prefix) :
    (mergeRemote k r v).vector p =
      match k.vector p with
      | some f => some (f ⊔ if r <+: p then v.known else ⊥)
      | none => if p = r then some v.known else none := by
  rw [Knowledge.vector, Knowledge.vector]
  by_cases hp : p = r
  · subst hp
    rcases h : k.lookup p with _ | gv <;> simp [mergeRemote, lookup_mapVals, h,
      known_mergeGenVectors]
  · -- only the prefix of the responder can be new
    have hother : (mergeRemote k r v).lookup p =
        (k.lookup p).map fun gv ↦ if r <+: p then mergeGenVectors gv v else gv := by
      rw [mergeRemote]
      split
      · exact lookup_mapVals ..
      · rw [lookup_insert_ne hp, lookup_mapVals]
    rw [hother, if_neg hp]
    rcases k.lookup p with _ | gv
    · rfl
    · by_cases hr : r <+: p <;> simp [hr, known_mergeGenVectors]

theorem vector_mergeAll_of_some (remote : List (Prefix × GenVector)) (h : k.vector p = some f) :
    (mergeAll remote k).vector p = some (f ⊔ reported remote p) := by
  induction remote generalizing k f with
  | nil => rw [reported, foldr_nil, sup_bot_eq, ← h, mergeAll, foldl_nil]
  | cons e remote ih =>
    rw [mergeAll, foldl_cons, ← mergeAll, ih (by rw [vector_mergeRemote, h]), sup_assoc]
    rfl

theorem vector_mergeAll_of_none (h : k.vector p = none) (hp : ∀ e ∈ remote, e.1 ≠ p) :
    (mergeAll remote k).vector p = none := by
  induction remote generalizing k with
  | nil => exact h
  | cons e remote ih =>
    obtain ⟨hne, hrest⟩ := forall_mem_cons.mp hp
    refine ih ?_ hrest
    rw [vector_mergeRemote, h]
    exact if_neg hne.symm

theorem vector_mergeAll_of_new {before : List (Prefix × GenVector)}
    (after : List (Prefix × GenVector)) (v : GenVector) (h : k.vector p = none)
    (hp : ∀ e ∈ before, e.1 ≠ p) :
    (mergeAll (before ++ (p, v) :: after) k).vector p = some (v.known ⊔ reported after p) := by
  have hown : (mergeRemote (mergeAll before k) p v).vector p = some v.known := by
    rw [vector_mergeRemote, vector_mergeAll_of_none h hp]
    exact if_pos rfl
  rw [mergeAll, foldl_append]
  exact vector_mergeAll_of_some after hown

theorem reported_le_iff {x : WithBot ℕ} {dev : DevId} :
    reported remote p dev ≤ x ↔ ∀ e ∈ remote, e.1 <+: p → e.2.known dev ≤ x := by
  induction remote with
  | nil => simp [reported]
  | cons e remote ih =>
    have hstep : reported (e :: remote) p dev =
        (if e.1 <+: p then e.2.known else ⊥) dev ⊔ reported remote p dev := rfl
    rw [hstep, sup_le_iff, ih, forall_mem_cons]
    refine and_congr_left fun _ ↦ ?_
    split
    · next h => exact ⟨fun hle _ ↦ hle, fun hle ↦ hle h⟩
    · next h => exact ⟨fun _ h' ↦ absurd h' h, fun _ ↦ bot_le⟩

end Merge

/-! ## The loop of `updateSyncSt` -/

/-- The changes that the loop makes to the entries of syncgroups. -/
def clearAll : List (Prefix × GenVector) → Knowledge → Store → Except SyncErr Store
  | [], _, tx => .ok tx
  | (r, v) :: remote, k, tx =>
    match clearSyncPending tx r (mergeRemote k r v) with
    | .error e => .error e
    | .ok tx' => clearAll remote (mergeRemote k r v) tx'

theorem mergeRemotes_false (remote : List (Prefix × GenVector)) (k : Knowledge) (s : Session) :
    mergeRemotes false remote k s = Result.ok (mergeAll remote k) s := by
  induction remote generalizing k with
  | nil => rfl
  | cons e remote ih => exact ih (mergeRemote k e.1 e.2)

variable {remote : List (Prefix × GenVector)} {k u : Knowledge} {s s' : Session} {tx tx' : Store}
  {r : Prefix} {gid : GroupId} {sg : Bool} {ds : DbSyncStateInMem}
  {before after : List (Prefix × GenVector)} {state : SgLocalState}

theorem mergeRemotes_true_iff {k' : Knowledge} :
    mergeRemotes true remote k s = Result.ok k' s' ↔
      k' = mergeAll remote k ∧ ∃ tx, clearAll remote k s.tx = .ok tx ∧
        s' = { s with tx := tx } := by
  induction remote generalizing k s with
  | nil =>
    rw [mergeRemotes, pure_apply, Result.ok.injEq]
    refine and_congr eq_comm ⟨fun h ↦ ⟨s.tx, rfl, h.symm⟩, ?_⟩
    rintro ⟨tx, htx, rfl⟩
    rw [← ok.inj htx]
  | cons e remote ih =>
    obtain ⟨r, v⟩ := e
    rw [mergeRemotes, bind_eq_ok_iff]
    simp only [onlyIf_eq_ok_iff, writeTx_eq_ok_iff, ih, clearAll]
    constructor
    · rintro ⟨_, _, ⟨-, tx, htx, rfl⟩ | ⟨hfalse, -⟩, hk, tx', htx', rfl⟩
      · refine ⟨hk, tx', ?_, rfl⟩
        rw [htx]
        exact htx'
      · exact absurd trivial hfalse
    · rintro ⟨hk, tx', htx', rfl⟩
      rcases hclear : clearSyncPending s.tx r (mergeRemote k r v) with e | tx
      · rw [hclear] at htx'
        exact nomatch htx'
      · rw [hclear] at htx'
        exact ⟨(), _, .inl ⟨trivial, tx, rfl, rfl⟩, hk, tx', htx', rfl⟩

/-- The entry of one syncgroup is looked at, and its flag may be cleared. -/
theorem clearSyncPending_eq_ok_iff :
    clearSyncPending tx r k = .ok tx' ↔ ∃ gid state, sgID r = .ok gid ∧
      tx.sgIds.lookup gid = some state ∧
      tx' = if state.syncPending ∧ 0 ≤ compare ((k.lookup r).getD ∅) state.pendingGenVec
        then { tx with sgIds := insert gid { state with syncPending := false } tx.sgIds }
        else tx := by
  rw [clearSyncPending]
  rcases sgID r with e | gid
  · simp
  · rcases hstate : tx.sgIds.lookup gid with _ | state
    · simp [hstate]
    · simp only [hstate]
      constructor
      · intro h
        refine ⟨gid, state, rfl, hstate, ?_⟩
        split at h
        · next hcond =>
          rw [if_pos hcond]
          exact (ok.inj h).symm
        · next hcond =>
          rw [if_neg hcond]
          exact (ok.inj h).symm
      · rintro ⟨gid', state', hgid, hstate', rfl⟩
        obtain rfl := ok.inj hgid
        obtain rfl := some.inj (hstate.symm.trans hstate')
        split <;> rfl

theorem lookup_clearSyncPending (h : clearSyncPending tx r k = .ok tx') (gid : GroupId) :
    (tx'.sgIds.lookup gid).isSome = (tx.sgIds.lookup gid).isSome ∧
      (sgID r ≠ .ok gid → tx'.sgIds.lookup gid = tx.sgIds.lookup gid) := by
  obtain ⟨gid', state, hgid, hstate, rfl⟩ := clearSyncPending_eq_ok_iff.mp h
  split
  · rw [lookup_insert_eq_ite]
    by_cases heq : gid = gid'
    · subst heq
      rw [if_pos rfl, hstate]
      exact ⟨rfl, fun hne ↦ absurd hgid hne⟩
    · rw [if_neg heq]
      exact ⟨rfl, fun _ ↦ rfl⟩
  · exact ⟨rfl, fun _ ↦ rfl⟩

theorem clearAll_ok_iff :
    (∃ tx', clearAll remote k tx = .ok tx') ↔
      ∀ e ∈ remote, ∃ gid, sgID e.1 = .ok gid ∧ (tx.sgIds.lookup gid).isSome = true := by
  induction remote generalizing k tx with
  | nil => exact ⟨fun _ _ he ↦ (nomatch he), fun _ ↦ ⟨tx, rfl⟩⟩
  | cons e remote ih =>
    obtain ⟨r, v⟩ := e
    rw [forall_mem_cons]
    rcases hclear : clearSyncPending tx r (mergeRemote k r v) with err | tx₁
    · simp only [clearAll, hclear]
      refine ⟨fun ⟨_, h⟩ ↦ (nomatch h), ?_⟩
      rintro ⟨⟨gid, hgid, hsome⟩, -⟩
      obtain ⟨state, hstate⟩ := isSome_iff_exists.mp hsome
      rw [clearSyncPending_eq_ok_iff.mpr ⟨gid, state, hgid, hstate, rfl⟩] at hclear
      exact nomatch hclear
    · simp only [clearAll, hclear, ih, (lookup_clearSyncPending hclear _).1]
      obtain ⟨gid, state, hgid, hstate, -⟩ := clearSyncPending_eq_ok_iff.mp hclear
      refine ⟨fun h ↦ ⟨⟨gid, hgid, ?_⟩, h⟩, fun h ↦ h.2⟩
      rw [hstate]
      rfl

theorem lookup_clearAll_of_ne (h : clearAll remote k tx = .ok tx')
    (hne : ∀ e ∈ remote, sgID e.1 ≠ .ok gid) : tx'.sgIds.lookup gid = tx.sgIds.lookup gid := by
  induction remote generalizing k tx with
  | nil => rw [← ok.inj h]
  | cons e remote ih =>
    rw [forall_mem_cons] at hne
    rw [clearAll] at h
    split at h
    · exact nomatch h
    · next tx₁ hclear => rw [ih h hne.2, (lookup_clearSyncPending hclear gid).2 hne.1]

theorem clearAll_append :
    clearAll (before ++ after) k tx = .ok tx' ↔
      ∃ tx₁, clearAll before k tx = .ok tx₁ ∧ clearAll after (mergeAll before k) tx₁ = .ok tx' := by
  induction before generalizing k tx with
  | nil =>
    refine ⟨fun h ↦ ⟨tx, rfl, h⟩, ?_⟩
    rintro ⟨tx₁, htx₁, h⟩
    obtain rfl := ok.inj htx₁
    exact h
  | cons e before ih =>
    obtain ⟨r, v⟩ := e
    rw [cons_append, clearAll, clearAll]
    rcases clearSyncPending tx r (mergeRemote k r v) with err | tx₁
    · simp
    · exact ih

/-- The vectors of a table in the order in which they are visited. -/
def Knowledge.visits (k : Knowledge) : List (Prefix × GenVector) := k.entries.map fun e ↦ (e.1, e.2)

/-- The vectors that a round changes. -/
def DbSyncStateInMem.vectors (ds : DbSyncStateInMem) (sg : Bool) : Knowledge :=
  if sg then ds.sggenvecs else ds.genvecs

/-- The vectors that are produced: without the generations of the device itself. -/
def produced (id : DevId) (remote : List (Prefix × GenVector)) (k : Knowledge) : Knowledge :=
  (mergeAll remote k).mapVals fun _ gv ↦ AList.erase id gv

theorem updateSyncSt_eq_ok
    (hds : s.svc.syncState = some ds) (h : updateSyncSt sg s = Result.ok u s') :
    u = produced s.svc.id s.remote.visits (ds.vectors sg) ∧ ∃ tx : Store, s'.tx.sgIds = tx.sgIds ∧
      if sg then clearAll s.remote.visits (ds.vectors sg) s.tx = .ok tx else tx = s.tx := by
  simp only [updateSyncSt, bind_eq_ok_iff, get_apply, Result.ok.injEq] at h
  obtain ⟨_, _, ⟨rfl, rfl⟩, h⟩ := h
  rw [hds] at h
  simp only [bind_eq_ok_iff, writeTx_eq_ok_iff, pure_apply, Result.ok.injEq] at h
  obtain ⟨k, s₁, hmerge, -, s₂, ⟨tx, htx, rfl⟩, rfl, rfl⟩ := h
  obtain rfl := ok.inj htx
  rcases sg with _ | _
  · rw [mergeRemotes_false, Result.ok.injEq] at hmerge
    obtain ⟨rfl, rfl⟩ := hmerge
    exact ⟨rfl, s.tx, rfl, rfl⟩
  · obtain ⟨rfl, tx, hclear, rfl⟩ := mergeRemotes_true_iff.mp hmerge
    exact ⟨rfl, tx, rfl, hclear⟩

theorem exists_updateSyncSt
    (hds : s.svc.syncState = some ds) (h : sg = true →
      ∀ e ∈ s.remote.visits, ∃ gid, sgID e.1 = .ok gid ∧
        (s.tx.sgIds.lookup gid).isSome = true) : ∃ u s', updateSyncSt sg s = Result.ok u s' := by
  have hmerge : ∃ k s₁, mergeRemotes sg s.remote.visits (ds.vectors sg) s = Result.ok k s₁ := by
    rcases sg with _ | _
    · exact ⟨_, _, mergeRemotes_false _ _ _⟩
    · obtain ⟨tx, htx⟩ := clearAll_ok_iff.mpr (h rfl)
      exact ⟨_, _, mergeRemotes_true_iff.mpr ⟨rfl, tx, htx, rfl⟩⟩
  obtain ⟨k, s₁, hk⟩ := hmerge
  rw [Knowledge.visits, DbSyncStateInMem.vectors] at hk
  simp only [updateSyncSt, bind_apply, get_apply, hds, hk]
  exact ⟨_, _, rfl⟩

/-! ## The vector that counts for a key -/

namespace Knowledge

/-- What is known of the devices for a key: the vector at the deepest stored prefix of it. -/
def knownAt (k : Knowledge) (key : Prefix) : DevId → WithBot ℕ :=
  GenVector.known ((AList.lookup (deepestPrefix (extractAndSortPrefixes k) key) k).getD ∅)

/-- No stored prefix of the key is longer. -/
structure IsDeepest (k : Knowledge) (key p : Prefix) (gv : GenVector) : Prop where
  stored : AList.lookup p k = some gv
  isPrefix : p <+: key
  deepest : ∀ q gv', AList.lookup q k = some gv' → q <+: key → q <+: p

variable {k : Knowledge} {key p q : Prefix} {gv : GenVector}

theorem knownAt_cases (k : Knowledge) (key : Prefix) :
    (k.knownAt key = ⊥ ∧ ∀ q gv, k.lookup q = some gv → ¬q <+: key) ∨
      ∃ p gv, k.IsDeepest key p gv ∧ k.knownAt key = gv.known := by
  rcases deepestPrefix_spec (p := key) (strictSorted_extractAndSortPrefixes k) with
    ⟨hnil, hnone⟩ | ⟨hmem, hpre, hdeep⟩
  · have hnone' : ∀ q gv, k.lookup q = some gv → ¬q <+: key := fun q gv hq ↦
      hnone q (mem_extractAndSortPrefixes.mpr ⟨gv, hq⟩)
    have hempty : k.lookup [] = none := by
      rw [eq_none_iff_forall_not_mem]
      exact fun gv hgv ↦ hnone' [] gv hgv nil_prefix
    refine .inl ⟨?_, hnone'⟩
    rw [knownAt, hnil, hempty]
    rfl
  · obtain ⟨gv, hgv⟩ := mem_extractAndSortPrefixes.mp hmem
    refine .inr ⟨_, gv, ⟨hgv, hpre, fun q gv' hq hqkey ↦ ?_⟩, ?_⟩
    · exact hdeep q (mem_extractAndSortPrefixes.mpr ⟨gv', hq⟩) hqkey
    · rw [knownAt, hgv, getD_some]

theorem knownAt_eq_bot (h : ∀ q gv, k.lookup q = some gv → ¬q <+: key) : k.knownAt key = ⊥ := by
  rcases knownAt_cases k key with ⟨hbot, -⟩ | ⟨p, gv, hp, -⟩
  · exact hbot
  · exact absurd hp.isPrefix (h p gv hp.stored)

theorem IsDeepest.knownAt_eq (h : k.IsDeepest key p gv) : k.knownAt key = gv.known := by
  rcases knownAt_cases k key with ⟨-, hnone⟩ | ⟨q, gv', hq, hknown⟩
  · exact absurd h.isPrefix (hnone p gv h.stored)
  · have hpq := hq.deepest p gv h.stored h.isPrefix
    have hqp := h.deepest q gv' hq.stored hq.isPrefix
    obtain rfl := hpq.eq_of_length (le_antisymm hpq.length_le hqp.length_le)
    rw [hknown, some.inj (h.stored.symm.trans hq.stored)]

theorem knownAt_self (h : k.lookup p = some gv) : k.knownAt p = gv.known :=
  IsDeepest.knownAt_eq ⟨h, prefix_rfl, fun _ _ _ hq ↦ hq⟩

theorem forall_knownAt_eq_bot_iff {dev : DevId} :
    (∀ key, k.knownAt key dev = ⊥) ↔ ∀ p gv, k.lookup p = some gv → gv.known dev = ⊥ := by
  constructor
  · intro h p gv hgv
    rw [← knownAt_self hgv]
    exact h p
  · intro h key
    rcases knownAt_cases k key with ⟨hbot, -⟩ | ⟨p, gv, hp, hknown⟩
    · rw [hbot]
      rfl
    · rw [hknown]
      exact h p gv hp.stored

theorem IsDeepest.of_prefix (h : k.IsDeepest key p gv) (hpq : p <+: q) (hqkey : q <+: key) :
    k.IsDeepest q p gv :=
  ⟨h.stored, hpq, fun q' gv' hq' hq'q ↦ h.deepest q' gv' hq' (hq'q.trans hqkey)⟩

end Knowledge

/-! ## What a round produces for a prefix -/

section Produced

variable {id : DevId} {k : Knowledge} {p : Prefix} {gv : GenVector}
    {remote : List (Prefix × GenVector)}

/-- A vector without the generations of the device itself. -/
def foreign (id : DevId) (f : DevId → WithBot ℕ) (dev : DevId) : WithBot ℕ :=
  if dev = id then ⊥ else f dev

theorem foreign_congr {f g : DevId → WithBot ℕ} :
    foreign id f = foreign id g ↔ ∀ dev, dev ≠ id → f dev = g dev := by
  rw [funext_iff]
  refine forall_congr' fun dev ↦ ?_
  by_cases h : dev = id
  · simp [foreign, h]
  · simp [foreign, h]

theorem vector_produced (id : DevId) (remote : List (Prefix × GenVector)) (k : Knowledge)
    (p : Prefix) : (produced id remote k).vector p =
    ((mergeAll remote k).vector p).map (foreign id) := by
  rw [Knowledge.vector, produced, lookup_mapVals, Knowledge.vector, Option.map_map, Option.map_map]
  congr 1
  funext gv dev
  exact known_erase gv id dev

theorem vector_produced_of_some (id : DevId) (remote : List (Prefix × GenVector))
    (h : k.lookup p = some gv) :
    (produced id remote k).vector p = some (foreign id (gv.known ⊔ reported remote p)) := by
  rw [vector_produced, vector_mergeAll_of_some remote (congrArg _ h), map_some]

theorem reported_congr {remote' : List (Prefix × GenVector)} (h : ∀ e, e ∈ remote ↔ e ∈ remote')
    (p : Prefix) : reported remote p = reported remote' p := by
  funext dev
  refine le_antisymm (reported_le_iff.mpr fun e he ↦ ?_) (reported_le_iff.mpr fun e he ↦ ?_)
  · exact reported_le_iff.mp le_rfl e ((h e).mp he)
  · exact reported_le_iff.mp le_rfl e ((h e).mpr he)

end Produced

/-! ## When merging is monotone -/

section Monotone

variable {id : DevId} {remote k : Knowledge} {p : Prefix} {gv v : GenVector}

theorem Knowledge.mem_visits {e : Prefix × GenVector} : e ∈ k.visits ↔ k.lookup e.1 = some e.2 := by
  rw [visits, mem_map, ← mem_entries_iff]
  constructor
  · rintro ⟨⟨p, gv⟩, he, rfl⟩
    exact he
  · exact fun h ↦ ⟨_, h, rfl⟩

theorem Knowledge.exists_visits (h : k.lookup p = some v) : ∃ before after,
    k.entries = before ++ ⟨p, v⟩ :: after ∧ (∀ e ∈ before ++ after, e.1 ≠ p) := by
  obtain ⟨before, after, hsplit⟩ := append_of_mem (mem_entries_iff.mpr h)
  refine ⟨before, after, hsplit, fun e he heq ↦ ?_⟩
  have hnodup := k.nodupKeys
  rw [hsplit, perm_nodupKeys perm_middle, nodupKeys_cons] at hnodup
  exact hnodup.1 (mem_map.mpr ⟨e, he, heq⟩)

theorem vector_produced_of_none (id : DevId) (h : k.lookup p = none) (hv : remote.lookup p = none) :
    (produced id remote.visits k).vector p = none := by
  rw [vector_produced, vector_mergeAll_of_none (congrArg _ h), map_none]
  rintro e he rfl
  exact nomatch hv.symm.trans (Knowledge.mem_visits.mp he)

theorem vector_produced_of_split (before after : List (Sigma fun _ : Prefix ↦ GenVector))
    (id : DevId) (hsplit : remote.entries = before ++ ⟨p, v⟩ :: after)
    (hp : ∀ e ∈ before ++ after, e.1 ≠ p)
    (h : k.lookup p = none) : (produced id remote.visits k).vector p =
      some (foreign id (v.known ⊔ reported (after.map fun e ↦ (e.1, e.2)) p)) := by
  rw [vector_produced, Knowledge.visits, hsplit, map_append, map_cons,
    vector_mergeAll_of_new _ v (congrArg _ h), map_some]
  intro e he
  obtain ⟨e', he', rfl⟩ := mem_map.mp he
  exact hp e' (mem_append_left _ he')

/-- The vectors of new prefixes include those of the responder for shorter prefixes. -/
def Nested (id : DevId) (remote k : Knowledge) : Prop :=
  ∀ r v, AList.lookup r k = none → AList.lookup r remote = some v →
    ∀ r' v', AList.lookup r' remote = some v' → r' <+: r → ∀ dev, dev ≠ id →
      v'.known dev ≤ v.known dev

theorem vector_produced_of_nested (hnested : Nested id remote k) (h : k.lookup p = none)
    (hv : remote.lookup p = some v) :
    (produced id remote.visits k).vector p = some (foreign id v.known) := by
  obtain ⟨before, after, hsplit, hp⟩ := Knowledge.exists_visits hv
  rw [vector_produced_of_split before after id hsplit hp h, some.injEq, foreign_congr]
  refine fun dev hdev ↦ sup_eq_left.mpr (reported_le_iff.mpr fun e he hpre ↦ ?_)
  refine hnested p v h hv e.1 e.2 (Knowledge.mem_visits.mp ?_) hpre dev hdev
  rw [Knowledge.visits, hsplit, map_append, map_cons]
  exact mem_append_right _ (mem_cons_of_mem _ he)

/-- **The vectors do not depend on the order of the visits** if and only if those of new prefixes
include those of the responder for shorter prefixes. -/
theorem forall_perm_iff_nested : (∀ remote' : Knowledge, remote'.entries.Perm remote.entries → ∀ p,
    (produced id remote'.visits k).vector p = (produced id remote.visits k).vector p) ↔
      Nested id remote k := by
  constructor
  · intro hperm r v h hv r' v' hv' hpre dev hdev
    obtain ⟨before, after, hsplit, hr⟩ := Knowledge.exists_visits hv
    -- the prefix is visited first, and last
    have hfirst : List.Perm (⟨r, v⟩ :: (before ++ after)) remote.entries :=
      hsplit ▸ perm_middle.symm
    have hlast : List.Perm (before ++ after ++ [⟨r, v⟩]) remote.entries :=
      (perm_append_singleton _ _).trans hfirst
    have hnodup := remote.nodupKeys
    have heq := (hperm ⟨_, (perm_nodupKeys hfirst).mpr hnodup⟩ hfirst r).trans
      (hperm ⟨_, (perm_nodupKeys hlast).mpr hnodup⟩ hlast r).symm
    rw [vector_produced_of_split [] (before ++ after) id rfl hr h,
      vector_produced_of_split (before ++ after) [] id rfl (by rwa [append_nil]) h, some.injEq,
        foreign_congr] at heq
    have hle := sup_eq_left.mp ((heq dev hdev).trans (sup_bot_eq _))
    by_cases hself : r' = r
    · subst hself
      rw [some.inj (hv'.symm.trans hv)]
    · refine reported_le_iff.mp hle (r', v') (mem_map.mpr ⟨⟨r', v'⟩, ?_, rfl⟩) hpre
      have hmem := hfirst.mem_iff.mpr (mem_entries_iff.mpr hv')
      exact (mem_cons.mp hmem).resolve_left fun heq' ↦ hself (congrArg Sigma.fst heq')
  · intro hnested remote' hperm p
    have hmem : ∀ e, e ∈ remote'.visits ↔ e ∈ remote.visits := fun _ ↦ (hperm.map _).mem_iff
    have hlookup : ∀ q, remote'.lookup q = remote.lookup q := fun q ↦ perm_lookup hperm
    rcases h : k.lookup p with _ | gv
    · rcases hv : remote.lookup p with _ | v
      · rw [vector_produced_of_none id h hv, vector_produced_of_none id h ((hlookup p).trans hv)]
      · have hnested' : Nested id remote' k := by simpa only [Nested, hlookup] using hnested
        rw [vector_produced_of_nested hnested h hv,
          vector_produced_of_nested hnested' h ((hlookup p).trans hv)]
    · rw [vector_produced_of_some id _ h, vector_produced_of_some id _ h, reported_congr hmem]

/-- The vectors of prefixes that are new to a device include, for the other devices, what the
responder says about shorter prefixes and what the device knew for them. -/
structure Includes (id : DevId) (remote k : Knowledge) : Prop where
  nested : Nested id remote k
  inherited : ∀ r v, AList.lookup r k = none → AList.lookup r remote = some v →
    ∀ dev, dev ≠ id → k.knownAt r dev ≤ v.known dev

/-- A prefix of the produced vectors was stored, or is one of the responder. -/
theorem vector_produced_cases {f : DevId → WithBot ℕ} (hnested : Nested id remote k)
    (h : (produced id remote.visits k).vector p = some f) :
    (∃ gv, k.lookup p = some gv ∧ f = foreign id (gv.known ⊔ reported remote.visits p)) ∨
      (k.lookup p = none ∧ ∃ v, remote.lookup p = some v ∧ f = foreign id v.known) := by
  rcases hp : k.lookup p with _ | gv
  · rcases hv : remote.lookup p with _ | v
    · rw [vector_produced_of_none id hp hv] at h
      exact nomatch h
    · rw [vector_produced_of_nested hnested hp hv] at h
      exact .inr ⟨rfl, v, rfl, (some.inj h).symm⟩
  · rw [vector_produced_of_some id _ hp] at h
    exact .inl ⟨gv, rfl, (some.inj h).symm⟩

theorem lookup_produced_of_some (id : DevId) (remote : Knowledge) (h : k.lookup p = some gv) :
    ∃ gv', (produced id remote.visits k).lookup p = some gv' := by
  have hvec := vector_produced_of_some id remote.visits h
  obtain ⟨gv', hgv', -⟩ := map_eq_some_iff.mp hvec
  exact ⟨gv', hgv'⟩

theorem lookup_produced_of_remote (hnested : Nested id remote k) (hv : remote.lookup p = some v) :
    ∃ gv', (produced id remote.visits k).lookup p = some gv' := by
  rcases h : k.lookup p with _ | gv
  · obtain ⟨gv', hgv', -⟩ := map_eq_some_iff.mp (vector_produced_of_nested hnested h hv)
    exact ⟨gv', hgv'⟩
  · exact lookup_produced_of_some id remote h

/-- The deepest prefix of a key in a larger table: below it, there is nothing more in the smaller
one. -/
theorem Knowledge.IsDeepest.knownAt_congr {u : Knowledge} {key : Prefix} (hu : u.IsDeepest key p gv)
    (hsub : ∀ q gv, k.lookup q = some gv → ∃ gv', u.lookup q = some gv') :
    k.knownAt key = k.knownAt p := by
  rcases k.knownAt_cases key with ⟨hbot, hnone⟩ | ⟨q, gv', hq, hknown⟩
  · rw [hbot, knownAt_eq_bot fun q gv' hq hqp ↦ hnone q gv' hq (hqp.trans hu.isPrefix)]
  · obtain ⟨u', hu'⟩ := hsub q gv' hq.stored
    rw [hknown, (hq.of_prefix (hu.deepest q u' hu' hq.isPrefix) hu.isPrefix).knownAt_eq]

theorem Includes.le_knownAt {dev : DevId} (h : Includes id remote k) (key : Prefix)
    (hdev : dev ≠ id) : k.knownAt key dev ≤ (produced id remote.visits k).knownAt key dev ∧
      remote.knownAt key dev ≤ (produced id remote.visits k).knownAt key dev := by
  have hstored : ∀ q gv, k.lookup q = some gv →
    ∃ u, (produced id remote.visits k).lookup q = some u :=
    fun _ _ hgv ↦ lookup_produced_of_some id remote hgv
  have hremote : ∀ q v, remote.lookup q = some v →
    ∃ u, (produced id remote.visits k).lookup q = some u :=
    fun _ _ hv ↦ lookup_produced_of_remote h.nested hv
  rcases (produced id remote.visits k).knownAt_cases key with ⟨-, hnone⟩ | ⟨p, u, hu, hknown⟩
  · rw [k.knownAt_eq_bot, remote.knownAt_eq_bot]
    · exact ⟨bot_le, bot_le⟩
    · intro q v hv
      obtain ⟨u, hu⟩ := hremote q v hv
      exact hnone q u hu
    · intro q gv hgv
      obtain ⟨u, hu⟩ := hstored q gv hgv
      exact hnone q u hu
  · have hvec : (produced id remote.visits k).vector p = some u.known := by
      rw [Knowledge.vector, hu.stored, map_some]
    rw [hknown, hu.knownAt_congr hstored, hu.knownAt_congr hremote]
    rcases vector_produced_cases h.nested hvec with ⟨gv, hgv, hf⟩ | ⟨hnew, v, hv, hf⟩
    · rw [hf, foreign, if_neg hdev, Knowledge.knownAt_self hgv]
      refine ⟨le_sup_left, le_sup_of_le_right ?_⟩
      -- what the responder says about a shorter prefix was merged
      rcases remote.knownAt_cases p with ⟨hbot, -⟩ | ⟨r, v, hv, hknown'⟩
      · rw [hbot]
        exact bot_le
      · rw [hknown']
        exact reported_le_iff.mp le_rfl (r, v) (Knowledge.mem_visits.mpr hv.stored) hv.isPrefix
    · rw [hf, foreign, if_neg hdev, Knowledge.knownAt_self hv]
      exact ⟨h.inherited p v hnew hv dev hdev, le_rfl⟩

theorem Includes.of_le_knownAt (hnested : Nested id remote k)
    (h : ∀ key dev, dev ≠ id → k.knownAt key dev ≤ (produced id remote.visits k).knownAt key dev) :
    Includes id remote k := by
  refine ⟨hnested, fun r v hnew hv dev hdev ↦ ?_⟩
  obtain ⟨u, hu, hknown⟩ := map_eq_some_iff.mp (vector_produced_of_nested hnested hnew hv)
  have hle := h r dev hdev
  rwa [Knowledge.knownAt_self hu, hknown, foreign, if_neg hdev] at hle

theorem knownAt_produced_self (id : DevId) (remote : List (Prefix × GenVector)) (k : Knowledge)
    (key : Prefix) : (produced id remote k).knownAt key id = ⊥ := by
  rcases (produced id remote k).knownAt_cases key with ⟨hbot, -⟩ | ⟨p, u, hu, hknown⟩
  · rw [hbot]
    rfl
  · rw [hknown]
    have hstored := hu.stored
    rw [produced, lookup_mapVals, map_eq_some_iff] at hstored
    obtain ⟨gv, -, rfl⟩ := hstored
    rw [known_erase, if_pos rfl]

end Monotone

/-- The round can visit the responder's prefixes in any order, and the vectors are the same. -/
def OrderFree (sg : Bool) (s : Session) (u : Knowledge) : Prop :=
  ∀ remote' : Knowledge, remote'.entries.Perm s.remote.entries → ∃ u' s',
    updateSyncSt sg { s with remote := remote' } = Result.ok u' s' ∧ ∀ p, u'.vector p = u.vector p

theorem orderFree_iff
    (hds : s.svc.syncState = some ds) (hrun : updateSyncSt sg s = Result.ok u s') :
    OrderFree sg s u ↔ Nested s.svc.id s.remote (ds.vectors sg) := by
  obtain ⟨rfl, tx, -, hclear⟩ := updateSyncSt_eq_ok hds hrun
  rw [← forall_perm_iff_nested]
  constructor
  · intro h remote' hperm p
    obtain ⟨u', s'', hrun', hvec⟩ := h remote' hperm
    obtain ⟨rfl, -⟩ := updateSyncSt_eq_ok (s := { s with remote := remote' }) hds hrun'
    exact hvec p
  · intro h remote' hperm
    have hsucceeds : ∃ u' s', updateSyncSt sg { s with remote := remote' } = Result.ok u' s' := by
      refine exists_updateSyncSt hds ?_
      rintro rfl e he
      exact clearAll_ok_iff.mp ⟨tx, hclear⟩ e ((hperm.map _).mem_iff.mp he)
    obtain ⟨u', s'', hrun'⟩ := hsucceeds
    obtain ⟨rfl, -⟩ := updateSyncSt_eq_ok (s := { s with remote := remote' }) hds hrun'
    exact ⟨_, s'', hrun', h remote' hperm⟩

/-- **Merging is monotone and does not depend on the order of the visits**, for the other devices,
exactly if the vectors of new prefixes include those of shorter prefixes, the responder's and the
stored ones. For the device itself it is monotone exactly if there is nothing about it to merge. -/
theorem merge_monotone_iff {sg : Bool} {s s' : Session} {ds : DbSyncStateInMem} {u : Knowledge}
    (hds : s.svc.syncState = some ds) (hrun : updateSyncSt sg s = Result.ok u s') :
    ((OrderFree sg s u ∧ ∀ key dev, dev ≠ s.svc.id →
      (ds.vectors sg).knownAt key dev ≤ u.knownAt key dev ∧
        s.remote.knownAt key dev ≤ u.knownAt key dev) ↔
      Includes s.svc.id s.remote (ds.vectors sg)) ∧
    ((∀ key, (ds.vectors sg).knownAt key s.svc.id ≤ u.knownAt key s.svc.id ∧
        s.remote.knownAt key s.svc.id ≤ u.knownAt key s.svc.id) ↔
      ∀ p gv, AList.lookup p (ds.vectors sg) = some gv ∨ AList.lookup p s.remote = some gv →
        gv.known s.svc.id = ⊥) := by
  rw [orderFree_iff hds hrun]
  obtain ⟨rfl, -⟩ := updateSyncSt_eq_ok hds hrun
  constructor
  · constructor
    · rintro ⟨hnested, hle⟩
      exact Includes.of_le_knownAt hnested fun key dev hdev ↦ (hle key dev hdev).1
    · exact fun h ↦ ⟨h.nested, fun key dev hdev ↦ h.le_knownAt key hdev⟩
  · simp only [knownAt_produced_self, le_bot_iff, forall_and,
      Knowledge.forall_knownAt_eq_bot_iff, or_imp]

/-- The fifth generation of device `1` is known for the keys below `a`. -/
def belowA : DbSyncStateInMem := ⟨⟨1, 0, 0⟩, ∅, AList.insert [97] (AList.insert 1 5 ∅) ∅, ∅, false⟩

/-- The device `0` merges vectors into those. -/
def merging (remote : Knowledge) : Session :=
  { Session.recv ⟨0, some belowA, ∅, ∅⟩ Store.empty with remote := remote }

theorem exists_updateSyncSt_merging (remote : Knowledge) :
    ∃ u s', updateSyncSt false (merging remote) = Result.ok u s' :=
  exists_updateSyncSt rfl fun h ↦ nomatch h

/-- A new prefix comes with the sixth generation of that device. -/
def sixthBelowAB : Knowledge := AList.insert [97, 98] (AList.insert 1 6 ∅) ∅

theorem includes_sixthBelowAB : Includes 0 sixthBelowAB belowA.genvecs := by
  have hlookup : ∀ {r v}, sixthBelowAB.lookup r = some v → r = [97, 98] ∧ v = insert 1 6 ∅ := by
    intro r v hv
    rw [sixthBelowAB, lookup_insert_eq_ite] at hv
    split at hv
    · next hr => exact ⟨hr, (some.inj hv).symm⟩
    · exact nomatch hv
  constructor
  · intro r v _ hv r' v' hv' _ dev _
    rw [(hlookup hv).2, (hlookup hv').2]
  · intro r v _ hv dev _
    obtain ⟨rfl, rfl⟩ := hlookup hv
    have hcmp : compare (insert 1 6 ∅) (insert 1 5 ∅) = 1 := by decide
    exact ((compare_exact _ _).2.2.1.mp hcmp).le dev

theorem merging_sixthBelowAB : ∃ u s', updateSyncSt false (merging sixthBelowAB) = Result.ok u s' ∧
    OrderFree false (merging sixthBelowAB) u ∧
      ∀ key, belowA.genvecs.knownAt key 1 ≤ u.knownAt key 1 ∧
        sixthBelowAB.knownAt key 1 ≤ u.knownAt key 1 := by
  obtain ⟨u, s', hrun⟩ := exists_updateSyncSt_merging sixthBelowAB
  have hds : (merging sixthBelowAB).svc.syncState = some belowA := rfl
  obtain ⟨hfree, hle⟩ := (merge_monotone_iff hds hrun).1.mpr includes_sixthBelowAB
  exact ⟨u, s', hrun, hfree, fun key ↦ hle key 1 (by decide)⟩

/-- The responder has a generation of device `2` for the keys below `a` and one of device `3` for
those below `ab`. What is produced for the keys below `ab` depends on the order, and does not
include what was known. -/
theorem merging_forgets : ∃ u s' u' s'',
    updateSyncSt false (merging (AList.insert [97] (AList.insert 2 7 ∅)
      (AList.insert [97, 98] (AList.insert 3 1 ∅) ∅))) = Result.ok u s' ∧
    updateSyncSt false (merging (AList.insert [97, 98] (AList.insert 3 1 ∅)
      (AList.insert [97] (AList.insert 2 7 ∅) ∅))) = Result.ok u' s'' ∧
    u.knownAt [97, 98] 2 < u'.knownAt [97, 98] 2 ∧
    u.knownAt [97, 98] 1 < belowA.genvecs.knownAt [97, 98] 1 := by
  obtain ⟨u, s', hrun⟩ := exists_updateSyncSt_merging (insert [97] (insert 2 7 ∅)
    (insert [97, 98] (insert 3 1 ∅) ∅))
  obtain ⟨u', s'', hrun'⟩ := exists_updateSyncSt_merging (insert [97, 98] (insert 3 1 ∅)
    (insert [97] (insert 2 7 ∅) ∅))
  refine ⟨u, s', u', s'', hrun, hrun', ?_⟩
  obtain ⟨rfl, -⟩ := updateSyncSt_eq_ok rfl hrun
  obtain ⟨rfl, -⟩ := updateSyncSt_eq_ok rfl hrun'
  decide +kernel

/-! ## Leaving the pending state -/

/-- The entry of the syncgroup that is looked at. -/
theorem lookup_clearSyncPending_self
    (h : clearSyncPending tx r k = .ok tx') (hgid : sgID r = .ok gid)
    (hstate : tx.sgIds.lookup gid = some state) (hpending : state.syncPending = true) :
    tx'.sgIds.lookup gid = some { state with
      syncPending := decide (compare ((k.lookup r).getD ∅) state.pendingGenVec < 0) } := by
  obtain ⟨gid', state', hgid', hstate', rfl⟩ := clearSyncPending_eq_ok_iff.mp h
  obtain rfl := ok.inj (hgid.symm.trans hgid')
  obtain rfl := some.inj (hstate.symm.trans hstate')
  by_cases hcmp : 0 ≤ compare ((k.lookup r).getD ∅) state.pendingGenVec
  · rw [if_pos ⟨hpending, hcmp⟩, decide_eq_false (not_lt.mpr hcmp)]
    exact lookup_insert _
  · rw [if_neg fun hand ↦ hcmp hand.2, decide_eq_true (not_le.mp hcmp), ← hpending]
    exact hstate

/-- The vector of a prefix at the moment at which it has been merged and its syncgroup is looked
at. -/
def currentAt (before : List (Prefix × GenVector)) (r : Prefix) (v : GenVector) (k : Knowledge) :
    GenVector :=
  (AList.lookup r (mergeRemote (mergeAll before k) r v)).getD ∅

/-- The round visits the prefixes `before`, then that of a pending syncgroup, and then `after`. -/
theorem syncPending_eq_of_updateSyncSt {v : GenVector}
    (hds : s.svc.syncState = some ds) (hremote : s.remote.visits = before ++ (r, v) :: after)
    (hgid : sgID r = .ok gid) (honce : ∀ e ∈ before ++ after, sgID e.1 ≠ .ok gid)
    (hstate : s.tx.sgIds.lookup gid = some state) (hpending : state.syncPending = true)
    (hrun : updateSyncSt true s = Result.ok u s') :
    (s'.tx.sgIds.lookup gid).map SgLocalState.syncPending =
      some (decide (compare (currentAt before r v ds.sggenvecs) state.pendingGenVec < 0)) := by
  obtain ⟨-, tx, htx, hclear⟩ := updateSyncSt_eq_ok hds hrun
  rw [if_pos rfl, hremote] at hclear
  obtain ⟨tx₁, hbefore, hrest⟩ := clearAll_append.mp hclear
  have hstate₁ : tx₁.sgIds.lookup gid = some state := by
    rw [lookup_clearAll_of_ne hbefore fun e he ↦ honce e (mem_append_left _ he), hstate]
  rw [clearAll] at hrest
  split at hrest
  · exact nomatch hrest
  · next tx₂ hself =>
    rw [htx, lookup_clearAll_of_ne hrest fun e he ↦ honce e (mem_append_right _ he),
      lookup_clearSyncPending_self hself hgid hstate₁ hpending]
    rfl

/-- **A syncgroup leaves the pending state when it has caught up**, exactly if its vector and the
pending one can be compared: `Compare` tells equal, smaller, larger and other vectors apart, but the
flag is cleared for the last kind as well. -/
theorem pending_cleared_iff {s s' : Session} {ds : DbSyncStateInMem} {u : Knowledge} {r : Prefix}
    {gid : GroupId} {state : SgLocalState} {v : GenVector}
    {before after : List (Prefix × GenVector)}
    (hds : s.svc.syncState = some ds) (hremote : s.remote.visits = before ++ (r, v) :: after)
    (hgid : sgID r = .ok gid) (honce : ∀ e ∈ before ++ after, sgID e.1 ≠ .ok gid)
    (hstate : AList.lookup gid s.tx.sgIds = some state) (hpending : state.syncPending = true)
    (hrun : updateSyncSt true s = Result.ok u s') :
    (∀ a b : GenVector, (a.compare b = 0 ↔ a.known = b.known) ∧
      (a.compare b = -1 ↔ a.known < b.known) ∧ (a.compare b = 1 ↔ b.known < a.known) ∧
      (a.compare b = 2 ↔ ¬a.known ≤ b.known ∧ ¬b.known ≤ a.known)) ∧
    (((AList.lookup gid s'.tx.sgIds).map SgLocalState.syncPending = some false ↔
        state.pendingGenVec.known ≤ (currentAt before r v ds.sggenvecs).known) ↔
      ((currentAt before r v ds.sggenvecs).known ≤ state.pendingGenVec.known ∨
        state.pendingGenVec.known ≤ (currentAt before r v ds.sggenvecs).known)) := by
  refine ⟨compare_exact, ?_⟩
  rw [syncPending_eq_of_updateSyncSt hds hremote hgid honce hstate hpending hrun, some.injEq,
    decide_eq_false_iff_not, compare_eq]
  by_cases hle : (currentAt before r v ds.sggenvecs).known ≤ state.pendingGenVec.known <;>
    by_cases hge : state.pendingGenVec.known ≤ (currentAt before r v ds.sggenvecs).known <;>
      simp [hle, hge]

def joinedState : DbSyncStateInMem := ⟨⟨1, 0, 0⟩, ∅, ∅, ∅, false⟩

/-- A device that joined a syncgroup hears of the fifth generation of device `1`. -/
def joinedSession (pending : GenVector) : Session :=
  { Session.recv ⟨0, some joinedState, ∅, ∅⟩
      { Store.empty with sgIds := AList.insert [103] ⟨true, true, pending⟩ ∅ } with
    remote := AList.insert (sgOID [103]) (AList.insert 1 5 ∅) ∅ }

theorem visits_joinedSession {pending : GenVector} : (joinedSession pending).remote.visits =
    [] ++ (sgOID [103], insert 1 5 ∅) :: [] := rfl

theorem sgID_joined : sgID (sgOID [103]) = .ok [103] := rfl

theorem exists_updateSyncSt_joinedSession (pending : GenVector) :
    ∃ u s', updateSyncSt true (joinedSession pending) = Result.ok u s' := by
  refine exists_updateSyncSt rfl fun _ e he ↦ ⟨[103], ?_⟩
  obtain rfl := mem_singleton.mp he
  exact ⟨rfl, rfl⟩

/-- The third generation of device `1` was waited for. -/
theorem joinedSession_caught_up : ∃ u s',
    updateSyncSt true (joinedSession (AList.insert 1 3 ∅)) = Result.ok u s' ∧
      (AList.lookup [103] s'.tx.sgIds).map SgLocalState.syncPending = some false := by
  obtain ⟨u, s', hrun⟩ := exists_updateSyncSt_joinedSession (insert 1 3 ∅)
  have hds : (joinedSession (insert 1 3 ∅)).svc.syncState = some joinedState := rfl
  obtain ⟨-, hiff⟩ := pending_cleared_iff hds visits_joinedSession sgID_joined
    (fun _ he ↦ nomatch he) rfl rfl hrun
  have hle : known (insert 1 3 ∅) ≤ (currentAt [] (sgOID [103]) (insert 1 5 ∅) ∅).known := by
    have hcmp : compare (currentAt [] (sgOID [103]) (insert 1 5 ∅) ∅)
      (insert 1 3 ∅) = 1 := by decide
    exact ((compare_exact _ _).2.2.1.mp hcmp).le
  exact ⟨u, s', hrun, (hiff.mpr (.inr hle)).mpr hle⟩

/-- The second generation of device `2` was waited for as well, and nothing was heard of that
device. -/
theorem joinedSession_behind : ∃ u s',
    updateSyncSt true (joinedSession (AList.insert 2 2 (AList.insert 1 3 ∅))) = Result.ok u s' ∧
      (AList.lookup [103] s'.tx.sgIds).map SgLocalState.syncPending = some false ∧
      (currentAt [] (sgOID [103]) (AList.insert 1 5 ∅) ∅).known 2 <
        GenVector.known (AList.insert 2 2 (AList.insert 1 3 ∅)) 2 := by
  obtain ⟨u, s', hrun⟩ := exists_updateSyncSt_joinedSession (insert 2 2 (insert 1 3 ∅))
  refine ⟨u, s', hrun, ?_, by decide⟩
  have hds : (joinedSession (insert 2 2 (insert 1 3 ∅))).svc.syncState = some joinedState := rfl
  rw [syncPending_eq_of_updateSyncSt hds visits_joinedSession sgID_joined (fun _ he ↦
    nomatch he) rfl rfl hrun]
  decide

end Vanadium.Vsync
