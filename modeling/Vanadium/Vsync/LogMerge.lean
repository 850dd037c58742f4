import Vanadium.Vsync.Responder

/-!
# Merging the log

Phase 3 of the responder, as far as the order and the number of the records are concerned. The heap
holds the next record of each device, and the range of the device says which records follow it. So
the heap together with what is pending is always the same collection of records up to order
(`popLogRecs_perm`), and the loop goes through each stored record of the ranges once
(`mergedLogRecs_perm`). This is so as long as no range ends at the largest 64-bit number: such a
range never runs out, and the loop does not end (`mergedLogRecs_endless`).
-/

namespace Vanadium.Vsync

open Foundations Table List BinaryHeap

/-- An entry of a vector of ranges. -/
abbrev RangeEntry : Type := Sigma fun _ : DevId ↦ GenRange

/-- Every record of the log is stored under its own device and generation. -/
def Store.LogKeyed (st : Store) : Prop :=
  ∀ pfx dev gen rec, AList.lookup (logRecKey pfx dev gen) st.log = some rec →
    rec.metadata.id = dev ∧ rec.metadata.gen = gen

/-! ## The records of one device -/

/-- The stored records of a device in a range of generations, in order. -/
def devRecs (st : Store) (pfx : ByteString) (dev : DevId) (lo hi : ℕ) : List LocalLogRec :=
  (List.range' lo (hi + 1 - lo)).filterMap fun i ↦ AList.lookup (logRecKey pfx dev i) st.log

section Device

variable {st : Store} {pfx : ByteString} {dev : DevId} {r r' : GenRange} {rec : LocalLogRec}

theorem mem_devRecs {lo hi : ℕ} : rec ∈ devRecs st pfx dev lo hi ↔
    ∃ i, lo ≤ i ∧ i ≤ hi ∧ st.log.lookup (logRecKey pfx dev i) = some rec := by
  rw [devRecs, mem_filterMap]
  refine exists_congr fun i ↦ ?_
  rw [mem_range'_1, ← and_assoc]
  refine and_congr_left fun _ ↦ ?_
  omega

theorem pairwise_devRecs (hkeyed : st.LogKeyed) (lo hi : ℕ) :
    (devRecs st pfx dev lo hi).Pairwise fun a b ↦ a.metadata.gen < b.metadata.gen := by
  rw [devRecs, pairwise_filterMap]
  have hlt : (range' lo (hi + 1 - lo)).Pairwise (· < ·) := pairwise_lt_range'
  refine hlt.imp ?_
  intro i j hij a ha b hb
  rwa [(hkeyed pfx dev i a ha).2, (hkeyed pfx dev j b hb).2]

theorem GenRange.ends_setCur (r : GenRange) (c : ℕ) :
    ({ r with cur := c } : GenRange).Ends ↔ r.Ends :=
  Iff.rfl

theorem devRecs_eq_nil_of_next (h : getNextLogRec st pfx dev r = .done) :
    devRecs st pfx dev r.cur r.max = [] := by
  rw [getNextLogRec] at h
  split at h
  · cases h
  next hnone =>
  split at h
  next hends =>
    rw [GenRange.visited, if_pos hends, findSome?_eq_none_iff] at hnone
    rw [devRecs, filterMap_eq_nil_iff]
    exact fun i hi ↦ Option.map_eq_none_iff.mp (hnone i hi)
  · cases h

theorem devRecs_eq_cons_of_next (hends : r.Ends)
    (h : getNextLogRec st pfx dev r = .found rec r') :
    devRecs st pfx dev r.cur r.max = rec :: devRecs st pfx dev r'.cur r'.max := by
  -- the scan from any point of the range on
  have hscan : ∀ n c i, c + n = max c (r.max + 1) →
      (range' c n).findSome? (fun i ↦ (st.log.lookup (logRecKey pfx dev i)).map
          fun rec ↦ (rec, i)) = some (rec, i) →
      i ≤ r.max ∧ (range' c n).filterMap (fun i ↦ st.log.lookup (logRecKey pfx dev i))
        = rec :: devRecs st pfx dev (i + 1) r.max := by
    intro n
    induction n with
    | zero => intro c i _ h; cases h
    | succ n ih =>
      intro c i hc h
      rw [range'_succ, findSome?_cons] at h
      rw [range'_succ, filterMap_cons]
      rcases hrec : st.log.lookup (logRecKey pfx dev c) with _ | rec₀
      · rw [hrec] at h
        exact ih (c + 1) i (by omega) h
      · rw [hrec] at h
        obtain ⟨rfl, rfl⟩ := Prod.mk.inj (Option.some.inj h)
        have hn : n = r.max + 1 - (c + 1) := by omega
        exact ⟨by omega, by rw [hn]; rfl⟩
  rw [getNextLogRec, GenRange.visited, if_pos hends] at h
  split at h
  next rec₀ i hfound =>
    obtain ⟨rfl, rfl⟩ := NextLogRec.found.inj h
    obtain ⟨hle, hcons⟩ := hscan _ _ i (by omega) hfound
    have hmod : (i + 1) % 2 ^ 64 = i + 1 := Nat.mod_eq_of_lt (lt_of_le_of_lt (by omega) hends)
    rw [devRecs, hcons, hmod]
  · rw [if_pos hends] at h
    cases h

theorem getNextLogRec_ne_never (hends : r.Ends) : getNextLogRec st pfx dev r ≠ .never := by
  intro h
  rw [getNextLogRec] at h
  split at h
  · cases h
  · rw [if_pos hends] at h
    cases h

/-- A record that is found is one of the device, and the range ends where it did. -/
theorem getNextLogRec_found (hkeyed : st.LogKeyed)
    (h : getNextLogRec st pfx dev r = .found rec r') : rec.metadata.id = dev ∧
    (r'.Ends ↔ r.Ends) := by
  rw [getNextLogRec] at h
  split at h
  next rec₀ i hfound =>
    obtain ⟨rfl, rfl⟩ := NextLogRec.found.inj h
    obtain ⟨j, -, hj⟩ := exists_of_findSome?_eq_some hfound
    obtain ⟨_, hrec, heq⟩ := Option.map_eq_some_iff.mp hj
    obtain ⟨rfl, -⟩ := Prod.mk.inj heq
    exact ⟨(hkeyed _ _ _ _ hrec).1, Iff.rfl⟩
  · split at h <;> cases h

theorem ends_of_next_done (h : getNextLogRec st pfx dev r = .done) : r.Ends := by
  by_contra hends
  rw [getNextLogRec] at h
  split at h
  · cases h
  · rw [if_neg hends] at h
    cases h

end Device

/-! ## The records of all devices -/

/-- The entries of the devices whose records are sent. -/
def others (initiator : DevId) (l : List RangeEntry) : List RangeEntry :=
  l.filter fun e ↦ e.1 ≠ initiator

/-- The records that the ranges of a list of entries still hold. -/
def pending (st : Store) (pfx : ByteString) (initiator : DevId) (l : List RangeEntry) :
    List LocalLogRec :=
  (others initiator l).flatMap fun e ↦ devRecs st pfx e.1 e.2.cur e.2.max

/-- The records that the ranges hold from their start. -/
def allRecs (st : Store) (pfx : ByteString) (initiator : DevId) (l : List RangeEntry) :
    List LocalLogRec :=
  (others initiator l).flatMap fun e ↦ devRecs st pfx e.1 e.2.min e.2.max

/-- The heap holds one record of each device that has a range. -/
def HeadPerDevice (initiator : DevId) (mh : List LocalLogRec) (l : List RangeEntry) : Prop :=
  (mh.map fun rec ↦ rec.metadata.id).Perm ((others initiator l).map Sigma.fst)

section Merge

variable {st : Store} {pfx : ByteString} {initiator : DevId} {rest : List LocalLogRec}
  {l' : List RangeEntry} {next : LocalLogRec}

variable {e : RangeEntry} {l : List RangeEntry} {mh : List LocalLogRec} {diff : GenRangeVector}
  {rec : LocalLogRec}

theorem others_cons_of_ne (h : e.1 ≠ initiator) :
    others initiator (e :: l) = e :: others initiator l :=
  filter_cons_of_pos (by simpa using h)

theorem others_cons_of_eq (h : e.1 = initiator) : others initiator (e :: l) = others initiator l :=
  filter_cons_of_neg (by simpa using h)

theorem others_perm (h : l.Perm l') :
    (others initiator l).Perm (others initiator l') := h.filter _

theorem pending_perm (h : l.Perm l') :
    (pending st pfx initiator l).Perm (pending st pfx initiator l') :=
  (others_perm h).flatMap_right _

theorem pending_cons_of_ne (h : e.1 ≠ initiator) :
    pending st pfx initiator (e :: l)
      = devRecs st pfx e.1 e.2.cur e.2.max ++ pending st pfx initiator l := by
  rw [pending, others_cons_of_ne h, flatMap_cons, pending]

/-- The device of a record taken from the heap has a range, and without both the heap and the
ranges still belong together. -/
theorem HeadPerDevice.pop (st : Store) (pfx : ByteString)
    (h : HeadPerDevice initiator mh diff.entries) (hperm : (rec :: rest).Perm mh) :
    ∃ r, diff.lookup rec.metadata.id = some r ∧ rec.metadata.id ≠ initiator ∧
      HeadPerDevice initiator rest (diff.erase rec.metadata.id).entries ∧
      (pending st pfx initiator diff.entries).Perm (devRecs st pfx rec.metadata.id r.cur r.max ++
        pending st pfx initiator (diff.erase rec.metadata.id).entries) := by
  have hid : rec.metadata.id ∈ (others initiator diff.entries).map Sigma.fst :=
    h.mem_iff.mp (mem_map_of_mem (hperm.mem_iff.mp mem_cons_self))
  obtain ⟨⟨dev, r⟩, he, hdev⟩ := mem_map.mp hid
  obtain ⟨hentry, hne⟩ := mem_filter.mp he
  replace hne : dev ≠ initiator := by simpa using hne
  subst hdev
  have hr : diff.lookup rec.metadata.id = some r := mem_entries_iff.mp hentry
  have hsplit := perm_cons_erase hr
  refine ⟨r, hr, hne, ?_, ?_⟩
  · have hmap := ((hperm.map _).trans h).trans ((others_perm hsplit).map _)
    rw [others_cons_of_ne hne] at hmap
    exact hmap.cons_inv
  · have hpend : (pending st pfx initiator diff.entries).Perm _ := pending_perm hsplit
    rwa [pending_cons_of_ne hne] at hpend

theorem HeadPerDevice.push
    {r : GenRange} (h : HeadPerDevice initiator mh (diff.erase next.metadata.id).entries)
    (hne : next.metadata.id ≠ initiator) :
    HeadPerDevice initiator (push (·.pos) mh next) (diff.insert next.metadata.id r).entries := by
  rw [HeadPerDevice, entries_insert, others_cons_of_ne hne]
  exact ((push_perm _ mh next).map _).trans (h.cons _)

/-- The records that the loop still has to go through after taking one record. -/
theorem perm_after_next (hkeyed : st.LogKeyed)
    {r r' : GenRange}
    (hperm : (rec :: rest).Perm mh) (hne : rec.metadata.id ≠ initiator)
    (hrest : HeadPerDevice initiator rest (diff.erase rec.metadata.id).entries)
    (hpend : (pending st pfx initiator diff.entries).Perm
      (devRecs st pfx rec.metadata.id r.cur r.max ++
        pending st pfx initiator (diff.erase rec.metadata.id).entries))
    (hnext : getNextLogRec st pfx rec.metadata.id r = .found next r') :
    HeadPerDevice initiator (push (·.pos) rest next) (diff.insert rec.metadata.id r').entries ∧
      (r.Ends → (rec :: (push (·.pos) rest next ++
        pending st pfx initiator (diff.insert rec.metadata.id r').entries)).Perm
        (mh ++ pending st pfx initiator diff.entries)) := by
  have hid := (getNextLogRec_found hkeyed hnext).1
  constructor
  · rw [← hid] at hne hrest ⊢
    exact hrest.push hne
  · intro hends
    rw [devRecs_eq_cons_of_next hends hnext, cons_append] at hpend
    rw [entries_insert, pending_cons_of_ne hne]
    refine (((push_perm _ rest next).append_right _).cons rec).trans ?_
    exact (perm_middle.symm.cons rec).trans (hperm.append hpend.symm)

/-- The ranges after the one of a device has been replaced. -/
theorem mem_others_replace {dev : DevId} {r : GenRange} (r' : GenRange)
    (hr : diff.lookup dev = some r) :
    (e ∈ others initiator diff.entries →
      e = ⟨dev, r⟩ ∨ e ∈ others initiator (diff.erase dev).entries) ∧
    (e ∈ others initiator (diff.erase dev).entries → e ∈ others initiator diff.entries ∧
      e ∈ others initiator (diff.insert dev r').entries) := by
  have hsplit : diff.entries.Perm (⟨dev, r⟩ :: (diff.erase dev).entries) := perm_cons_erase hr
  simp only [others, mem_filter, entries_insert, hsplit.mem_iff, mem_cons]
  tauto

/-- The main loop goes through the records of the heap and the pending ones, each once. -/
theorem popLogRecs_perm (hkeyed : st.LogKeyed) (fuel : ℕ) (pfx : ByteString) {mh : List LocalLogRec}
    {diff : GenRangeVector} (hheads : HeadPerDevice initiator mh diff.entries)
    (hends : ∀ e ∈ others initiator diff.entries, e.2.Ends)
    (hfuel : mh.length + (pending st pfx initiator diff.entries).length ≤ fuel) :
    ∃ out, popLogRecs st pfx fuel mh diff = (out, .returned none) ∧
      out.Perm (mh ++ pending st pfx initiator diff.entries) := by
  induction fuel generalizing mh diff with
  | zero =>
    obtain rfl : mh = [] := length_eq_zero_iff.mp (by omega)
    have hnil : pending st pfx initiator diff.entries = [] := length_eq_zero_iff.mp (by omega)
    exact ⟨[], by rw [popLogRecs, pop_nil], by rw [hnil, append_nil]⟩
  | succ fuel ih =>
    rw [popLogRecs]
    by_cases hmh : mh = []
    · -- no record left means no range left
      subst hmh
      have hothers : others initiator diff.entries = [] := map_eq_nil_iff.mp (nil_perm.mp hheads)
      refine ⟨[], by rw [pop_nil], ?_⟩
      rw [pending, hothers]
      exact List.Perm.refl _
    · obtain ⟨rec, rest, hpop, hperm, -⟩ := pop_spec (f := fun rec : LocalLogRec ↦ rec.pos) hmh
      obtain ⟨r, hr, hne, hrest, hpend⟩ := hheads.pop st pfx hperm
      have hrends : r.Ends :=
        hends ⟨rec.metadata.id, r⟩ (mem_filter.mpr ⟨mem_entries_iff.mpr hr, by simpa using hne⟩)
      rw [hpop]
      simp only [hr]
      rcases hnext : getNextLogRec st pfx rec.metadata.id r with ⟨next, r'⟩ | _ | _
      · obtain ⟨hheads', hperm'⟩ := perm_after_next hkeyed hperm hne hrest hpend hnext
        replace hperm' := hperm' hrends
        obtain ⟨out, hout, houtp⟩ := ih hheads' (by
          intro e he
          rw [entries_insert, others_cons_of_ne hne] at he
          rcases mem_cons.mp he with rfl | he
          · exact (getNextLogRec_found hkeyed hnext).2.mpr hrends
          · exact hends e ((mem_others_replace r' hr).2 he).1) (by
          have := hperm'.length_eq
          simp only [length_append, length_cons] at this
          omega)
        dsimp only
        rw [hout]
        exact ⟨rec :: out, rfl, (houtp.cons rec).trans hperm'⟩
      · rw [devRecs_eq_nil_of_next hnext, nil_append] at hpend
        have hperm' := hperm.append hpend.symm
        obtain ⟨out, hout, houtp⟩ := ih hrest
          (fun e he ↦ hends e ((mem_others_replace r hr).2 he).1) (by
          have := hperm'.length_eq
          simp only [length_append, length_cons] at this
          omega)
        rw [hout]
        exact ⟨rec :: out, rfl, (houtp.cons rec).trans hperm'⟩
      · exact absurd hnext (getNextLogRec_ne_never hrends)

theorem HeadPerDevice.exists_pop (h : HeadPerDevice initiator mh l) (he : e ∈ others initiator l) :
    ∃ rec rest, BinaryHeap.pop (·.pos) mh = some (rec, rest) ∧ (rec :: rest).Perm mh := by
  have hmh : mh ≠ [] := by
    rintro rfl
    rw [map_eq_nil_iff.mp (nil_perm.mp h)] at he
    cases he
  obtain ⟨rec, rest, hpop, hperm, -⟩ := pop_spec (f := fun rec : LocalLogRec ↦ rec.pos) hmh
  exact ⟨rec, rest, hpop, hperm⟩

/-- With a range that has no end, the main loop has none either: the device keeps its range, and so
a record in the heap. -/
theorem popLogRecs_endless (hkeyed : st.LogKeyed) {fuel : ℕ} {mh : List LocalLogRec}
    {diff : GenRangeVector} (hheads : HeadPerDevice initiator mh diff.entries)
    (hends : ∃ e ∈ others initiator diff.entries, ¬e.2.Ends) :
    (popLogRecs st pfx fuel mh diff).2 = .running := by
  induction fuel generalizing mh diff with
  | zero =>
    obtain ⟨e, he, -⟩ := hends
    obtain ⟨rec, rest, hpop, -⟩ := hheads.exists_pop he
    rw [popLogRecs, hpop]
  | succ fuel ih =>
    obtain ⟨e, he, hendless⟩ := hends
    obtain ⟨rec, rest, hpop, hperm⟩ := hheads.exists_pop he
    obtain ⟨r, hr, hne, hrest, hpend⟩ := hheads.pop st pfx hperm
    rw [popLogRecs, hpop]
    simp only [hr]
    rcases hnext : getNextLogRec st pfx rec.metadata.id r with ⟨next, r'⟩ | _ | _
    · obtain ⟨hheads', -⟩ := perm_after_next hkeyed hperm hne hrest hpend hnext
      refine ih hheads' ?_
      rcases (mem_others_replace r' hr).1 he with rfl | he
      · refine ⟨⟨rec.metadata.id, r'⟩, ?_,
          fun h ↦ hendless ((getNextLogRec_found hkeyed hnext).2.mp h)⟩
        rw [entries_insert, others_cons_of_ne hne]
        exact mem_cons_self
      · exact ⟨e, ((mem_others_replace r' hr).2 he).2, hendless⟩
    · refine ih hrest ⟨e, ?_, hendless⟩
      rcases (mem_others_replace r hr).1 he with rfl | he
      · exact absurd (ends_of_next_done hnext) hendless
      · exact he
    · rfl

/-! ## Filling the heap -/

theorem foldl_firstLogRec_none (l : List RangeEntry) :
    l.foldl (firstLogRec st pfx initiator) none = none := by
  induction l with
  | nil => rfl
  | cons e l ih => exact ih

/-- The loop comes to its end if the ranges do. -/
theorem exists_foldl_firstLogRec (st : Store) (pfx : ByteString) {l : List RangeEntry}
    (hends : ∀ e ∈ others initiator l, e.2.Ends) (acc : List LocalLogRec × GenRangeVector) :
    ∃ x, l.foldl (firstLogRec st pfx initiator) (some acc) = some x := by
  induction l generalizing acc with
  | nil => exact ⟨acc, rfl⟩
  | cons e l ih =>
    rw [foldl_cons, firstLogRec]
    by_cases hinit : e.1 = initiator
    · rw [others_cons_of_eq hinit] at hends
      rw [if_pos hinit]
      exact ih hends acc
    · rw [others_cons_of_ne hinit, forall_mem_cons] at hends
      rw [if_neg hinit]
      have hnever : getNextLogRec st pfx e.1 { e.2 with cur := e.2.min } ≠ .never :=
        getNextLogRec_ne_never hends.1
      split
      exacts [ih hends.2 _, ih hends.2 _, absurd ‹_› hnever]

/-- The loop from any point on: `done` are the entries that it has left behind. -/
theorem foldl_firstLogRec (hkeyed : st.LogKeyed) : ∀ (rest done : List RangeEntry)
    (acc : List LocalLogRec × GenRangeVector) {x : List LocalLogRec × GenRangeVector},
    rest.foldl (firstLogRec st pfx initiator) (some acc) = some x →
    acc.2.entries.Perm (done ++ rest) → HeadPerDevice initiator acc.1 done →
    HeadPerDevice initiator x.1 x.2.entries ∧
      ((∀ e ∈ others initiator (done ++ rest), e.2.Ends) ↔
        ∀ e ∈ others initiator x.2.entries, e.2.Ends) ∧
      ((∀ e ∈ others initiator rest, e.2.Ends) →
        (x.1 ++ pending st pfx initiator x.2.entries).Perm
          (acc.1 ++ pending st pfx initiator done ++ allRecs st pfx initiator rest)) := by
  intro rest
  induction rest with
  | nil =>
    rintro done acc x hx hsplit hheads
    obtain rfl := Option.some.inj hx
    rw [append_nil] at hsplit ⊢
    refine ⟨hheads.trans ((others_perm hsplit).map _).symm, ?_, fun _ ↦ ?_⟩
    · exact forall_congr' fun e ↦ imp_congr_left (others_perm hsplit).mem_iff.symm
    · rw [allRecs, others, filter_nil, flatMap_nil, append_nil]
      exact (pending_perm hsplit).append_left _
  | cons e rest ih =>
    obtain ⟨dev, r₀⟩ := e
    intro done acc x hx hsplit hheads
    rw [foldl_cons, firstLogRec] at hx
    by_cases hinit : dev = initiator
    · rw [if_pos hinit] at hx
      have hothers : (others initiator done).Perm (others initiator (done ++ [⟨dev, r₀⟩])) := by
        have h : (others initiator _).Perm _ :=
          others_perm (perm_append_singleton (⟨dev, r₀⟩ : RangeEntry) done).symm
        rwa [others_cons_of_eq hinit] at h
      obtain ⟨hheads', hends, hperm⟩ := ih (done ++ [⟨dev, r₀⟩]) acc hx (by simpa using hsplit)
        (hheads.trans (hothers.map _))
      rw [append_assoc, singleton_append] at hends
      refine ⟨hheads', hends, fun hrest ↦ ?_⟩
      rw [others_cons_of_eq hinit] at hrest
      refine (hperm hrest).trans ?_
      rw [allRecs, allRecs, others_cons_of_eq hinit]
      exact ((hothers.flatMap_right _).symm.append_left _).append_right _
    · have hlookup : acc.2.lookup dev = some r₀ := mem_entries_iff.mp (hsplit.mem_iff.mpr (by simp))
      have herase : (acc.2.erase dev).entries.Perm (done ++ rest) := by
        have h := (perm_cons_erase hlookup).symm.trans hsplit
        exact (h.trans perm_middle).cons_inv
      have hall : allRecs st pfx initiator (⟨dev, r₀⟩ :: rest)
          = devRecs st pfx dev r₀.min r₀.max ++ allRecs st pfx initiator rest := by
        rw [allRecs, others_cons_of_ne hinit, flatMap_cons, allRecs]
      -- the entry at hand is one of those that count
      have hsplitEnds : (∀ e ∈ others initiator (done ++ ⟨dev, r₀⟩ :: rest), e.2.Ends) ↔
          r₀.Ends ∧ ∀ e ∈ others initiator (done ++ rest), e.2.Ends := by
        rw [← forall_mem_cons (p := fun e : RangeEntry ↦ e.2.Ends) (a := ⟨dev, r₀⟩),
          ← others_cons_of_ne hinit]
        exact forall_congr' fun e ↦ imp_congr_left (others_perm perm_middle).mem_iff
      rw [if_neg hinit] at hx
      rw [hall, others_cons_of_ne hinit, forall_mem_cons, hsplitEnds]
      rcases hnext : getNextLogRec st pfx dev { r₀ with cur := r₀.min } with ⟨rec, r⟩ | _ | _
      · obtain ⟨hid, hrends⟩ := getNextLogRec_found hkeyed hnext
        rw [hnext] at hx
        obtain ⟨hheads', hends, hperm⟩ := ih (⟨dev, r⟩ :: done)
          (acc.1 ++ [rec], acc.2.insert dev r) hx (herase.cons _) (by
            rw [HeadPerDevice, others_cons_of_ne hinit, map_append, map_singleton, hid]
            exact (perm_append_singleton _ _).trans (hheads.cons _))
        rw [cons_append, others_cons_of_ne hinit, forall_mem_cons] at hends
        refine ⟨hheads', (and_congr_left' hrends.symm).trans hends, fun ⟨hr, hrest⟩ ↦ ?_⟩
        refine (hperm hrest).trans ?_
        have hcons : devRecs st pfx dev r₀.min r₀.max = rec :: devRecs st pfx dev r.cur r.max :=
          devRecs_eq_cons_of_next ((r₀.ends_setCur _).mpr hr) hnext
        rw [pending_cons_of_ne hinit, hcons, perm_iff_count]
        simp only [count_append, count_cons, count_nil]
        omega
      · have hnil : devRecs st pfx dev r₀.min r₀.max = [] := devRecs_eq_nil_of_next hnext
        have hr : r₀.Ends := (r₀.ends_setCur _).mp (ends_of_next_done hnext)
        rw [hnext] at hx
        obtain ⟨hheads', hends, hperm⟩ := ih done (acc.1, acc.2.erase dev) hx herase hheads
        refine ⟨hheads', (and_iff_right hr).trans hends, fun ⟨_, hrest⟩ ↦ ?_⟩
        rw [hnil, nil_append]
        exact hperm hrest
      · -- a call that does not return leaves no result
        rw [hnext, foldl_firstLogRec_none] at hx
        cases hx

/-- **Phase 3 goes through each stored record of the ranges once**, if the ranges end. -/
theorem mergedLogRecs_perm (hkeyed : st.LogKeyed) (pfx : ByteString) (initiator : DevId)
    {diff : GenRangeVector} (hends : ∀ e ∈ others initiator diff.entries, e.2.Ends) :
    ∃ n, ∀ fuel ≥ n, ∃ out, mergedLogRecs fuel st pfx initiator diff = (out, .returned none) ∧
      out.Perm (allRecs st pfx initiator diff.entries) := by
  obtain ⟨x, hx⟩ := exists_foldl_firstLogRec st pfx hends ([], diff)
  obtain ⟨hheads, hxends, hperm⟩ := foldl_firstLogRec hkeyed diff.entries [] ([], diff) hx
    (List.Perm.refl _) (List.Perm.refl _)
  replace hperm := hperm hends
  have hinit := (init_spec (fun rec : LocalLogRec ↦ rec.pos) x.1).2
  refine ⟨(allRecs st pfx initiator diff.entries).length, fun fuel hfuel ↦ ?_⟩
  obtain ⟨out, hout, houtp⟩ := popLogRecs_perm hkeyed fuel pfx
    ((hinit.map _).trans hheads) (hxends.mp hends) (by
      have h := hperm.length_eq
      rw [length_append] at h
      rwa [hinit.length_eq, h])
  refine ⟨out, ?_, houtp.trans ((hinit.append_right _).trans hperm)⟩
  rw [mergedLogRecs, firstLogRecs, hx]
  exact hout

/-- **Phase 3 does not end** if a range has no end. -/
theorem mergedLogRecs_endless (hkeyed : st.LogKeyed) (pfx : ByteString) (initiator : DevId)
    {diff : GenRangeVector} (hends : ¬∀ e ∈ others initiator diff.entries, e.2.Ends) (fuel : ℕ) :
    (mergedLogRecs fuel st pfx initiator diff).2 = .running := by
  rw [mergedLogRecs]
  rcases hx : firstLogRecs st pfx initiator diff with _ | x
  · rfl
  · obtain ⟨hheads, hxends, -⟩ := foldl_firstLogRec hkeyed diff.entries [] ([], diff) hx
      (List.Perm.refl _) (List.Perm.refl _)
    have hinit := (init_spec (fun rec : LocalLogRec ↦ rec.pos) x.1).2
    refine popLogRecs_endless hkeyed ((hinit.map _).trans hheads) ?_
    by_contra hall
    push Not at hall
    exact hends (hxends.mpr hall)

theorem mem_allRecs :
    rec ∈ allRecs st pfx initiator diff.entries ↔ ∃ dev r i, diff.lookup dev = some r ∧
      dev ≠ initiator ∧ r.min ≤ i ∧ i ≤ r.max ∧
      st.log.lookup (logRecKey pfx dev i) = some rec := by
  rw [allRecs, mem_flatMap]
  constructor
  · rintro ⟨⟨dev, r⟩, he, hrec⟩
    obtain ⟨hentry, hne⟩ := mem_filter.mp he
    obtain ⟨i, hi⟩ := mem_devRecs.mp hrec
    exact ⟨dev, r, i, mem_entries_iff.mp hentry, by simpa using hne, hi⟩
  · rintro ⟨dev, r, i, hr, hne, hi⟩
    exact ⟨⟨dev, r⟩, mem_filter.mpr ⟨mem_entries_iff.mpr hr, by simpa using hne⟩,
      mem_devRecs.mpr ⟨i, hi⟩⟩

theorem nodup_allRecs (hkeyed : st.LogKeyed) (diff : GenRangeVector) :
    ((allRecs st pfx initiator diff.entries).map
      fun rec ↦ (rec.metadata.id, rec.metadata.gen)).Nodup := by
  have hid : ∀ {dev lo hi rec}, rec ∈ devRecs st pfx dev lo hi → rec.metadata.id = dev := by
    intro dev lo hi rec hrec
    obtain ⟨i, -, -, hi⟩ := mem_devRecs.mp hrec
    exact (hkeyed _ _ _ _ hi).1
  rw [allRecs, map_flatMap, nodup_flatMap]
  constructor
  · intro e _
    refine List.Nodup.map_on (fun a ha b hb hab ↦ ?_) ?_
    · obtain ⟨i, -, -, hi⟩ := mem_devRecs.mp ha
      obtain ⟨j, -, -, hj⟩ := mem_devRecs.mp hb
      have hij : i = j := by
        rw [← (hkeyed _ _ _ _ hi).2, ← (hkeyed _ _ _ _ hj).2]
        exact congrArg Prod.snd hab
      rw [hij, hj] at hi
      exact (Option.some.inj hi).symm
    · exact (pairwise_devRecs hkeyed _ _).imp fun hlt heq ↦ absurd (heq ▸ hlt) (lt_irrefl _)
  · have hkeys : diff.entries.Pairwise fun a b ↦ a.1 ≠ b.1 :=
      nodupKeys_iff_pairwise.mp diff.nodupKeys
    refine (hkeys.filter _).imp fun {a b} hab ↦ ?_
    intro x hx hx'
    obtain ⟨rec, hrec, rfl⟩ := mem_map.mp hx
    obtain ⟨rec', hrec', heq⟩ := mem_map.mp hx'
    exact hab ((hid hrec).symm.trans ((congrArg Prod.fst heq).symm.trans (hid hrec')))

end Merge

end Vanadium.Vsync
