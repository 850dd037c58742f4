import Vanadium.Raft.Files

/-!
# Reading the files back

The state that `readState` reads from the directory follows the one in memory step by step
(`Mirrors`): after each write the reader would find one record more at the end of the last file
(`read_encode`), a new log file that only repeats the term and the vote changes nothing
(`read_openPersist`), and a log file that is started next to a snapshot stands for everything before
it (`read_snapshot`).
-/

namespace Vanadium.Raft

open Foundations Table List Persist
open AList hiding keys
open Option hiding map_map min_eq_left

variable {ι : Type}

/-! ## The tail of the log -/

namespace Persist

variable {p q : Persist ι} {e : LogEntry} {i : Index}

/-- An entry that is not in the log yet, and does not leave a gap, becomes its last. -/
theorem addToLogTail_spec (hpresent : ∀ i, e.index ≤ i → ((p.lookup i).isSome ↔ i ≤ p.lastIndex))
    (hterm : (p.lookup e.index).map LogEntry.term ≠ some e.term) :
    (∃ t, p.addToLogTail e =
      { p with logTail := t, lastIndex := e.index, lastTerm := e.term }) ∧
    ∀ i, (p.addToLogTail e).lookup i =
      if i = e.index then some e else if e.index < i then none else p.lookup i := by
  have hlater : ∀ i, e.index < i → p.lastIndex < i → p.lookup i = none := by
    intro i hi hlast
    rw [← not_isSome_iff_eq_none, hpresent i hi.le]
    lia
  unfold addToLogTail
  rcases hold : p.lookup e.index with _ | old
  · refine ⟨⟨_, rfl⟩, fun i ↦ ?_⟩
    -- there is nothing after the place of the entry
    have hlast : p.lastIndex < e.index := by
      have h := hpresent e.index le_rfl
      rw [hold] at h
      simpa using h
    rw [lookup, lookup_insert_eq_ite]
    split
    · rfl
    · split
      · next hi => exact hlater i hi (hlast.trans hi)
      · rfl
  · rw [hold, map_some, Ne, some.injEq] at hterm
    simp only [if_neg hterm]
    refine ⟨⟨_, rfl⟩, fun i ↦ ?_⟩
    rw [lookup, lookup_insert_eq_ite, deleteEntries, lookup_foldl_erase]
    split
    · rfl
    · split
      · next hmem =>
        rw [mem_range'_1] at hmem
        rw [if_pos (by lia)]
      · next hmem =>
        rw [mem_range'_1] at hmem
        split
        · next hi => exact hlater i hi (by lia)
        · rfl

/-- The place of the last snapshot. -/
def snapPlace (p : Persist ι) : Term × Index := p.lastSnap.getD (0, 0)

/-- An entry as `readLog` rebuilds it. -/
def untyped (e : LogEntry) : LogEntry := { e with type := .client }

/-- The log after the last snapshot has no gaps. Where the log of this session begins, `baseIndex`,
moves with the last snapshot at a restart only. -/
structure LogInv (p : Persist ι) : Prop where
  le : p.snapPlace.2 ≤ p.lastIndex
  present : ∀ i, p.snapPlace.2 < i → ((p.lookup i).isSome ↔ i ≤ p.lastIndex)
  index : ∀ i e, p.lookup i = some e → e.index = i
  lastTerm : ∀ e, p.lookup p.lastIndex = some e → e.term = p.lastTerm
  snapTerm : p.lastIndex = p.snapPlace.2 → p.lastTerm = p.snapPlace.1
  base : p.baseIndex ≤ p.snapPlace.2
  opened : p.baseIndex = p.snapPlace.2 →
    p.baseTerm = p.snapPlace.1 ∧ ∀ i ≤ p.snapPlace.2, p.lookup i = none

/-- The state `q` that is read back for the state `p`. -/
structure Mirrors (p q : Persist ι) : Prop where
  currentTerm : q.currentTerm = p.currentTerm
  votedFor : q.votedFor = p.votedFor
  lastIndex : q.lastIndex = p.lastIndex
  lastTerm : q.lastTerm = p.lastTerm
  lastSnap : q.lastSnap = p.lastSnap
  base : (q.baseTerm, q.baseIndex) = p.snapPlace
  entries : ∀ i, q.lookup i = if p.snapPlace.2 < i then (p.lookup i).map untyped else none

theorem logInv_fresh : (fresh : Persist ι).LogInv where
  le := le_rfl
  present := fun i hi ↦ by simp [fresh, lookup, snapPlace] at hi ⊢; lia
  index := fun i e he ↦ by cases he
  lastTerm := fun e he ↦ by cases he
  snapTerm := fun _ ↦ rfl
  base := le_rfl
  opened := fun _ ↦ ⟨rfl, fun i _ ↦ rfl⟩

theorem Mirrors.snapPlace (h : Mirrors p q) : q.snapPlace = p.snapPlace := by
  rw [Persist.snapPlace, h.lastSnap, Persist.snapPlace]

/-- What was read back is the state of a new session. -/
theorem Mirrors.logInv (h : Mirrors p q) (hp : p.LogInv) : q.LogInv := by
  have hbase : q.baseTerm = p.snapPlace.1 ∧ q.baseIndex = p.snapPlace.2 := Prod.mk.inj h.base
  have hentry : ∀ i e, q.lookup i = some e → ∃ e', p.lookup i = some e' ∧ untyped e' = e := by
    intro i e he
    rw [h.entries] at he
    split at he
    · exact map_eq_some_iff.mp he
    · cases he
  refine ⟨?_, ?_, ?_, ?_, ?_, ?_, ?_⟩
  · rw [h.snapPlace, h.lastIndex]
    exact hp.le
  · intro i hi
    rw [h.snapPlace] at hi
    rw [h.entries, if_pos hi, h.lastIndex, isSome_map, hp.present i hi]
  · intro i e he
    obtain ⟨e', he', rfl⟩ := hentry i e he
    exact hp.index i e' he'
  · intro e he
    rw [h.lastIndex] at he
    obtain ⟨e', he', rfl⟩ := hentry _ e he
    rw [h.lastTerm]
    exact hp.lastTerm e' he'
  · intro hlast
    rw [h.snapPlace, h.lastIndex] at hlast
    rw [h.snapPlace, h.lastTerm]
    exact hp.snapTerm hlast
  · rw [h.snapPlace, hbase.2]
  · intro _
    rw [h.snapPlace, hbase.1]
    exact ⟨rfl, fun i hi ↦ by rw [h.entries, if_neg (not_lt.mpr hi)]⟩

theorem Mirrors.refl (h : Mirrors p q) : Mirrors q q where
  currentTerm := rfl
  votedFor := rfl
  lastIndex := rfl
  lastTerm := rfl
  lastSnap := rfl
  base := h.snapPlace ▸ h.base
  entries := fun i ↦ by
    rw [h.snapPlace, h.entries]
    split
    · cases p.lookup i <;> rfl
    · rfl

theorem Mirrors.control (h : Mirrors p q) (ct : Term) (vf : Option ι) :
    Mirrors (p.setCurrentTermAndVotedFor ct vf) (q.replay (.control ct vf)) :=
  { h with currentTerm := rfl, votedFor := rfl }

theorem LogInv.setTerm (h : p.LogInv) (ct : Term) (vf : Option ι) :
    (p.setCurrentTermAndVotedFor ct vf).LogInv := { h with }

/-- **A new entry is read back**, without its type. -/
theorem Mirrors.addEntry (h : Mirrors p q) (hp : p.LogInv) (hsnap : p.snapPlace.2 < e.index)
    (hle : e.index ≤ p.lastIndex + 1) (hterm : (p.lookup e.index).map LogEntry.term ≠ some e.term) :
    (p.addToLogTail e).LogInv ∧ Mirrors (p.addToLogTail e) (q.replay (.entry e)) := by
  have hq := h.logInv hp
  obtain ⟨⟨t, hadd⟩, hlookup⟩ :=
    addToLogTail_spec (fun i hi ↦ hp.present i (hsnap.trans_le hi)) hterm
  -- the reader accepts the entry and finds the same place for it
  have hreplay : q.replay (.entry e) = q.addToLogTail (untyped e) := by
    rw [replay, if_pos ⟨by lia, Or.inr (by rw [h.lastIndex]; exact hle)⟩]
    rfl
  have htermq : (q.lookup (untyped e).index).map LogEntry.term ≠ some (untyped e).term := by
    change (q.lookup e.index).map LogEntry.term ≠ some e.term
    rw [h.entries, if_pos hsnap, Option.map_map]
    exact hterm
  obtain ⟨⟨t', haddq⟩, hlookupq⟩ := addToLogTail_spec
      (fun i hi ↦ hq.present i (by rw [h.snapPlace]; exact hsnap.trans_le hi)) htermq
  rw [hreplay]
  rw [hadd] at hlookup ⊢
  rw [haddq] at hlookupq ⊢
  refine ⟨⟨hsnap.le, ?_, ?_, ?_, ?_, hp.base, ?_⟩,
    ⟨h.currentTerm, h.votedFor, rfl, rfl, h.lastSnap, h.base, ?_⟩⟩
  · intro i hi
    rw [hlookup]
    split
    · next heq => simp [heq]
    · split
      · simp only [isSome_none, Bool.false_eq_true, false_iff]
        lia
      · rw [hp.present i hi]
        lia
  · intro i e' he'
    rw [hlookup] at he'
    split at he'
    · next heq =>
      cases he'
      exact heq.symm
    · split at he'
      · cases he'
      · exact hp.index i e' he'
  · intro e' he'
    rw [hlookup, if_pos rfl] at he'
    rw [some.inj he']
  · exact fun hlast ↦ absurd hlast hsnap.ne'
  · intro hopened
    obtain ⟨hbt, hnone⟩ := hp.opened hopened
    refine ⟨hbt, fun i hi ↦ ?_⟩
    change i ≤ p.snapPlace.2 at hi
    rw [hlookup, if_neg (by lia), if_neg (by lia)]
    exact hnone i hi
  · intro i
    rw [hlookupq, hlookup, h.entries]
    change (if i = e.index then _ else if e.index < i then _ else _) =
      if p.snapPlace.2 < i then _ else _
    split
    · next heq => rw [if_pos (by lia)]; rfl
    · split
      · rw [if_pos (by lia)]
        rfl
      · rfl

end Persist

/-! ## Reading the directory -/

namespace Dir

variable {d d' : Dir ι} {f f' : FileName}

theorem mem_keys_newLog {recs : List (Record ι)} :
    f' ∈ (d.newLog f recs).logs.keys ↔ f' = f ∨ f' ∈ d.logs.keys := mem_insert _

theorem mem_keys_encode {r : Record ι} (hf : f ∈ d.logs.keys) :
    f' ∈ (d.encode f r).logs.keys ↔ f' ∈ d.logs.keys := by
  refine (mem_insert _).trans ⟨?_, Or.inr⟩
  rintro (rfl | h)
  · exact hf
  · exact h

/-- A snapshot file that can be restored. -/
structure Valid (d : Dir ι) (f : FileName) : Prop where
  snap : f ∈ d.snaps.keys
  complete : f ∈ d.logs.keys
  parse : parseFileName f ≠ none

/-- The latest snapshot is the last of those that can be restored. -/
theorem latestSnap_spec (d : Dir ι) :
    (d.latestSnap = none ∧ ∀ f, ¬d.Valid f) ∨
      ∃ f t i, d.latestSnap = some (f, t, i) ∧ parseFileName f = some (t, i) ∧ d.Valid f ∧
        ∀ f', d.Valid f' → f' ≤ f := by
  have hmem : ∀ f, (f, ()) ∈ (d.snaps.scan d.Complete).reverse ↔
      f ∈ d.logs.keys ∧ f ∈ d.snaps.keys := by
    intro f
    rw [mem_reverse, mem_scan, mem_keys_iff (t := d.snaps)]
    exact and_congr_right fun _ ↦ ⟨fun h ↦ ⟨(), h⟩, fun ⟨_, h⟩ ↦ h⟩
  rcases hs : d.latestSnap with _ | ⟨f, t, i⟩
  · left
    refine ⟨rfl, fun f hf ↦ hf.parse ?_⟩
    have hnone := findSome?_eq_none_iff.mp hs (f, ()) ((hmem f).mpr ⟨hf.complete, hf.snap⟩)
    exact map_eq_none_iff.mp hnone
  · right
    obtain ⟨before, ⟨f₀, u⟩, after, hsplit, hf, hbefore⟩ := findSome?_eq_some_iff.mp hs
    obtain ⟨ti, hparse, heq⟩ := map_eq_some_iff.mp hf
    cases heq
    have hin := (hmem f₀).mp (by rw [hsplit]; simp)
    refine ⟨f₀, t, i, rfl, hparse, ⟨hin.2, hin.1, by rw [hparse]; exact some_ne_none _⟩,
      fun f' hf' ↦ ?_⟩
    -- the files that come before in the falling order have no readable name
    have hmem' := (hmem f').mpr ⟨hf'.complete, hf'.snap⟩
    rw [hsplit] at hmem'
    rcases mem_append.mp hmem' with hb | ha
    · exact absurd (map_eq_none_iff.mp (hbefore _ hb)) hf'.parse
    · rcases mem_cons.mp ha with heq | ha
      · exact (congrArg Prod.fst heq).le
      · have hsorted : ((d.snaps.scan d.Complete).reverse).Pairwise fun a b ↦ b.1 < a.1 :=
          pairwise_reverse.mpr pairwise_scan
        rw [hsplit] at hsorted
        exact ((pairwise_cons.mp (pairwise_append.mp hsorted).2.1).1 _ ha).le

theorem latestSnap_eq_of_subset (hsub : ∀ f, d'.Valid f → d.Valid f)
    (hlast : ∀ f t i, d.latestSnap = some (f, t, i) → d'.Valid f) :
    d'.latestSnap = d.latestSnap := by
  rcases d.latestSnap_spec with ⟨hnone, hd⟩ | ⟨f, t, i, hsome, hparse, hf, hmax⟩
  · rcases d'.latestSnap_spec with ⟨hnone', -⟩ | ⟨f', -, -, -, -, hf', -⟩
    · rw [hnone, hnone']
    · exact absurd (hsub f' hf') (hd f')
  · rcases d'.latestSnap_spec with ⟨-, hd'⟩ | ⟨f', t', i', hsome', hparse', hf', hmax'⟩
    · exact absurd (hlast f t i hsome) (hd' f)
    · obtain rfl := le_antisymm (hmax f' (hsub f' hf')) (hmax' f (hlast f t i hsome))
      rw [hparse] at hparse'
      cases hparse'
      rw [hsome, hsome']

theorem firstLog_congr (h : d'.latestSnap = d.latestSnap) : d'.firstLog = d.firstLog := by
  rw [firstLog, h, firstLog]

theorem valid_of_latestSnap {t : Term} {i : Index} (h : d.latestSnap = some (f, t, i)) :
    d.Valid f ∧ d.firstLog = f := by
  rcases d.latestSnap_spec with ⟨hnone, -⟩ | ⟨f', t', i', hsome, -, hf, -⟩
  · rw [hnone] at h
    cases h
  · rw [hsome] at h
    cases h
    exact ⟨hf, by rw [firstLog, hsome]; rfl⟩

theorem latestSnap_encode (hf : f ∈ d.logs.keys) (r : Record ι) :
    (d.encode f r).latestSnap = d.latestSnap := by
  apply latestSnap_eq_of_subset
  · exact fun f' h ↦ ⟨h.snap, (mem_keys_encode hf).mp h.complete, h.parse⟩
  · intro f' t i hlast
    have h := (valid_of_latestSnap hlast).1
    exact ⟨h.snap, (mem_keys_encode hf).mpr h.complete, h.parse⟩

end Dir

namespace Persist

variable {p : Persist ι} {files files' : List (FileName × List (List (Record ι)))}

theorem readLogs_append (h : ∀ e ∈ files, e.2.length = 1) (p : Persist ι) :
    p.readLogs (files ++ files') = (p.readLogs files).readLogs files' := by
  induction files generalizing p with
  | nil => rfl
  | cons e files ih =>
    obtain ⟨f, streams⟩ := e
    obtain ⟨hone, hrest⟩ := forall_mem_cons.mp h
    obtain ⟨s, rfl⟩ := length_eq_one_iff.mp hone
    exact ih hrest (s.foldl replay p)

theorem readLogs_concat (p : Persist ι) (f : FileName) :
    p.readLogs (files ++ [(f, [[.control (p.readLogs files).currentTerm
      (p.readLogs files).votedFor]])]) = p.readLogs files := by
  induction files generalizing p with
  | nil => rfl
  | cons e files ih =>
    obtain ⟨f', _ | ⟨s, _ | ⟨s', rest⟩⟩⟩ := e
    · exact ih p
    · exact ih (s.foldl replay p)
    · rfl

theorem readLogs_concat_of_ne_nil (p : Persist ι) (f : FileName) {streams : List (List (Record ι))}
    (hne : streams ≠ []) (s : List (Record ι)) :
    p.readLogs (files ++ [(f, streams ++ [s])]) = p.readLogs (files ++ [(f, streams)]) := by
  induction files generalizing p with
  | nil =>
    obtain _ | ⟨s₀, _ | ⟨s₁, rest⟩⟩ := streams
    · exact absurd rfl hne
    · rfl
    · rfl
  | cons e files ih =>
    obtain ⟨f', _ | ⟨s, _ | ⟨s', rest⟩⟩⟩ := e
    · exact ih p
    · exact ih (s.foldl replay p)
    · rfl

end Persist

namespace Dir

variable {d : Dir ι} {f : FileName}

theorem streams_of_lookup {st : List (List (Record ι))} (h : d.logs.lookup f = some st) :
    d.streams f = st := by
  rw [streams, h, getD_some]

theorem streams_of_notMem (h : f ∉ d.logs.keys) : d.streams f = [] := by
  rw [streams, lookup_eq_none_iff.mpr h, getD_none]

theorem streams_newLog (recs : List (Record ι)) (f' : FileName) :
    (d.newLog f recs).streams f' = if f' = f then d.streams f ++ [recs] else d.streams f' := by
  rw [streams, newLog, lookup_insert_eq_ite]
  split
  · rfl
  · rfl

theorem newLog_streams_ne_nil (hne : ∀ f' ∈ d.logs.keys, d.streams f' ≠ [])
    (recs : List (Record ι)) :
    ∀ f' ∈ (d.newLog f recs).logs.keys, (d.newLog f recs).streams f' ≠ [] := by
  intro f' hf'
  rw [streams_newLog]
  split
  · simp
  · next h => exact hne f' ((mem_keys_newLog.mp hf').resolve_left h)

theorem read_of_mem (h : d.firstLog ∈ d.logs.keys) :
    d.read = (ofSnap d.latestSnap).readLogs (d.logs.scan (d.firstLog ≤ ·)) := if_pos h

theorem mem_snaps_cleaned : f ∈ d.cleaned.snaps.keys ↔ f ∈ d.snaps.keys ∧ f ∈ d.logs.keys ∧
    ¬(parseFileName f = none ∧ ∀ s ∈ d.latestSnap, s.1 < f) := by
  rw [cleaned, mem_keys_foldl_erase]
  refine and_congr_right fun hf ↦ ?_
  rw [mem_filter, decide_eq_true_eq, not_and, not_or, not_not]
  exact ⟨fun h ↦ h hf, fun h _ ↦ h⟩

theorem latestSnap_newLog (hf : f ∈ d.snaps.keys → f ∈ d.logs.keys) (recs : List (Record ι)) :
    (d.newLog f recs).latestSnap = d.latestSnap := by
  apply latestSnap_eq_of_subset
  · intro f' h
    refine ⟨h.snap, ?_, h.parse⟩
    rcases mem_keys_newLog.mp h.complete with rfl | hmem
    · exact hf h.snap
    · exact hmem
  · intro f' t i hlast
    have h := (valid_of_latestSnap hlast).1
    exact ⟨h.snap, mem_keys_newLog.mpr (Or.inr h.complete), h.parse⟩

section Read

variable (hfirst : d.firstLog ∈ d.logs.keys)
include hfirst

/-- **A record is read back** if it goes to the last file and every file read before has one stream
only. -/
theorem read_encode (hf : f ∈ d.logs.keys) (hmax : ∀ f' ∈ d.logs.keys, f' ≤ f)
    (hone : ∀ f' ∈ d.logs.keys, d.firstLog ≤ f' → (d.streams f').length = 1) (r : Record ι) :
    (d.encode f r).read = d.read.replay r := by
  have hsnap := latestSnap_encode hf r
  have hlog := firstLog_congr hsnap
  obtain ⟨st, hst⟩ := mem_keys_iff.mp hf
  obtain ⟨s, hs⟩ := length_eq_one_iff.mp (hone f hf (hmax _ hfirst))
  have hst' := streams_of_lookup hst
  have hle : d.firstLog ≤ f := hmax _ hfirst
  have hrest : ∀ e ∈ scan (d.firstLog ≤ ·) (d.logs.erase f), e.2.length = 1 := by
    rintro ⟨f', st'⟩ he
    obtain ⟨hle', hlookup⟩ := mem_scan.mp he
    rw [lookup_erase_eq_ite] at hlookup
    split at hlookup
    · cases hlookup
    · rw [← streams_of_lookup hlookup]
      exact hone f' (mem_keys_iff.mpr ⟨_, hlookup⟩) hle'
  -- the two listings differ in their last file only
  have hold : d.logs.scan (d.firstLog ≤ ·) =
      scan (d.firstLog ≤ ·) (d.logs.erase f) ++ [(f, [s])] := by
    apply scan_eq_append hle (by rw [hst, ← hst', hs])
      (fun k w hk ↦ hmax k (mem_keys_iff.mpr ⟨w, hk⟩))
    · exact fun k hk ↦ lookup_erase_ne hk
    · exact lookup_erase f d.logs
  have hnew : (d.encode f r).logs.scan (d.firstLog ≤ ·) =
      scan (d.firstLog ≤ ·) (d.logs.erase f) ++ [(f, [s ++ [r]])] := by
    rw [encode, hs]
    exact scan_insert_last hle hmax _
  rw [read_of_mem hfirst, read_of_mem (by rw [hlog, mem_keys_encode hf]; exact hfirst), hsnap, hlog,
    hold, hnew, readLogs_append hrest, readLogs_append hrest]
  exact foldl_append

/-! ### Opening the directory -/

theorem lookup_cleaned (f : FileName) :
    d.cleaned.logs.lookup f = if f < d.firstLog then none else d.logs.lookup f := by
  rw [cleaned, lookup_foldl_erase]
  by_cases hf : f ∈ d.logs.keys
  · simp [hf, hfirst]
  · rw [if_neg (fun h ↦ hf (mem_filter.mp h).1), lookup_eq_none_iff.mpr hf, ite_self]

theorem mem_keys_cleaned : f ∈ d.cleaned.logs.keys ↔ f ∈ d.logs.keys ∧ d.firstLog ≤ f := by
  rw [mem_keys_iff, mem_keys_iff, lookup_cleaned hfirst]
  split
  · next h => simp [h]
  · next h => simp [not_lt.mp h]

theorem streams_cleaned_ne_nil (hne : ∀ f ∈ d.logs.keys, d.streams f ≠ []) :
    ∀ f ∈ d.cleaned.logs.keys, d.cleaned.streams f ≠ [] := by
  intro f hf
  obtain ⟨hmem, hle⟩ := (mem_keys_cleaned hfirst).mp hf
  rw [streams, lookup_cleaned hfirst, if_neg (not_lt.mpr hle)]
  exact hne f hmem

theorem latestSnap_cleaned : d.cleaned.latestSnap = d.latestSnap := by
  apply latestSnap_eq_of_subset
  · intro f h
    exact ⟨(mem_snaps_cleaned.mp h.snap).1, ((mem_keys_cleaned hfirst).mp h.complete).1, h.parse⟩
  · intro f t i hlast
    obtain ⟨h, hlog⟩ := valid_of_latestSnap hlast
    exact ⟨mem_snaps_cleaned.mpr ⟨h.snap, h.complete, fun hp ↦ h.parse hp.1⟩,
      (mem_keys_cleaned hfirst).mpr ⟨h.complete, hlog.le⟩, h.parse⟩

theorem read_cleaned : d.cleaned.read = d.read := by
  have hsnap := latestSnap_cleaned hfirst
  have hlog := firstLog_congr hsnap
  have hscan : d.cleaned.logs.scan (d.firstLog ≤ ·) = d.logs.scan (d.firstLog ≤ ·) := by
    apply scan_congr
    intro f hf
    rw [lookup_cleaned hfirst, if_neg (not_lt.mpr hf)]
  have hkept : d.cleaned.firstLog ∈ d.cleaned.logs.keys := by
    rw [hlog, mem_keys_cleaned hfirst]
    exact ⟨hfirst, le_rfl⟩
  rw [read_of_mem hfirst, read_of_mem hkept, hsnap, hlog, hscan]

/-- A new encoder on the last file repeats the term and the vote, which changes nothing: either the
file is new, or the reader stops before the second stream. -/
theorem read_newLog (hf : f ∈ d.snaps.keys → f ∈ d.logs.keys)
    (hmax : ∀ f' ∈ d.logs.keys, f' ≤ f) (hne : ∀ f' ∈ d.logs.keys, d.streams f' ≠ []) :
    (d.newLog f [.control d.read.currentTerm d.read.votedFor]).read = d.read := by
  have hsnap := latestSnap_newLog hf [.control d.read.currentTerm d.read.votedFor]
  have hlog := firstLog_congr hsnap
  have hnew : (d.newLog f [.control d.read.currentTerm d.read.votedFor]).logs.scan
      (d.firstLog ≤ ·) = scan (d.firstLog ≤ ·) (d.logs.erase f) ++
        [(f, d.streams f ++ [[.control d.read.currentTerm d.read.votedFor]])] :=
    scan_insert_last (hmax _ hfirst) hmax _
  rw [read_of_mem (by rw [hlog, mem_keys_newLog]; exact Or.inr hfirst), hsnap, hlog, hnew]
  by_cases hmem : f ∈ d.logs.keys
  · obtain ⟨st, hst⟩ := mem_keys_iff.mp hmem
    rw [readLogs_concat_of_ne_nil _ _ (hne f hmem), streams_of_lookup hst, read_of_mem hfirst,
      scan_eq_append (hmax _ hfirst) hst (fun k w hk ↦ hmax k (mem_keys_iff.mpr ⟨w, hk⟩))
        (fun k hk ↦ lookup_erase_ne hk) (lookup_erase f d.logs)]
  · have hscan : scan (d.firstLog ≤ ·) (d.logs.erase f) = d.logs.scan (d.firstLog ≤ ·) := by
      apply scan_congr
      intro k _
      rw [lookup_erase_eq_ite]
      split
      · next heq => rw [heq, lookup_eq_none_iff.mpr hmem]
      · rfl
    rw [streams_of_notMem hmem, hscan, nil_append, read_of_mem hfirst]
    exact readLogs_concat _ f

/-- **Opening the directory again reads the same**, if the new log does not come before one that is
there. -/
theorem read_openPersist
    (hmax : ∀ f ∈ d.logs.keys, f ≤ termIndexToFileName d.read.lastTerm d.read.lastIndex)
    (hne : ∀ f ∈ d.logs.keys, d.streams f ≠ []) :
    (FsPersist.openPersist d).dir.read = d.read := by
  have hread := read_cleaned hfirst
  have hlog := firstLog_congr (latestSnap_cleaned hfirst)
  have hmem : ∀ f ∈ d.cleaned.logs.keys, f ∈ d.logs.keys :=
    fun f hf ↦ ((mem_keys_cleaned hfirst).mp hf).1
  have key := read_newLog
   
    (by rw [hlog, mem_keys_cleaned hfirst]; exact ⟨hfirst, le_rfl⟩)
    (fun hsnap ↦ (mem_keys_cleaned hfirst).mpr ⟨(mem_snaps_cleaned.mp hsnap).2.1, hmax _ hfirst⟩)
    (fun f hf ↦ hmax f (hmem f hf)) (streams_cleaned_ne_nil hfirst hne)
  rw [hread] at key
  exact key

end Read

/-! ### The log after a snapshot -/

section Snapshot

variable {t : Term} {i : Index}

/-- The directory with the snapshot at `(t, i)` and a log of the same name. -/
def snapshot (d : Dir ι) (t : Term) (i : Index) (recs : List (Record ι)) : Dir ι :=
  newLog { d with snaps := AList.insert (termIndexToFileName t i) () d.snaps }
    (termIndexToFileName t i) recs

/-- No other snapshot comes later, since its log would have to. -/
theorem latestSnap_snapshot (ht : t < 2 ^ 63) (hi : i < 2 ^ 63)
    (hmax : ∀ f ∈ d.logs.keys, f < termIndexToFileName t i) (recs : List (Record ι)) :
    (d.snapshot t i recs).latestSnap = some (termIndexToFileName t i, t, i) := by
  have hparse : parseFileName (termIndexToFileName t i) = some (t, i) := by
    rw [parseFileName, termIndexToFileName, ofLex_toLex, if_pos ht, min_eq_left (by lia)]
  have hvalid : (d.snapshot t i recs).Valid (termIndexToFileName t i) :=
    ⟨(mem_insert _).mpr (Or.inl rfl), mem_keys_newLog.mpr (Or.inl rfl),
      by rw [hparse]; exact some_ne_none _⟩
  rcases (d.snapshot t i recs).latestSnap_spec with
    ⟨-, hnone⟩ | ⟨f, t', i', hsome, hparse', hf, hlast⟩
  · exact absurd hvalid (hnone _)
  · have hfle : f ≤ termIndexToFileName t i := by
      rcases mem_keys_newLog.mp hf.complete with rfl | h
      · exact le_rfl
      · exact (hmax f h).le
    obtain rfl := le_antisymm hfle (hlast _ hvalid)
    rw [hparse] at hparse'
    cases hparse'
    exact hsome

/-- **A log next to its snapshot stands for everything before it**, if its file is new and comes
last. -/
theorem read_snapshot (ht : t < 2 ^ 63) (hi : i < 2 ^ 63)
    (hmax : ∀ f ∈ d.logs.keys, f < termIndexToFileName t i) (recs : List (Record ι)) :
    (d.snapshot t i recs).read =
      recs.foldl replay (ofSnap (some (termIndexToFileName t i, t, i))) := by
  have hsnap := latestSnap_snapshot ht hi hmax recs
  obtain ⟨hvalid, hfirst⟩ := valid_of_latestSnap hsnap
  have hlogs : (d.snapshot t i recs).logs = d.logs.insert (termIndexToFileName t i) [recs] := by
    have hnone : d.streams (termIndexToFileName t i) = [] :=
      streams_of_notMem fun h ↦ lt_irrefl _ (hmax _ h)
    change insert (termIndexToFileName t i) (d.streams (termIndexToFileName t i) ++ [recs])
      d.logs = _
    rw [hnone, nil_append]
  have hscan : (d.snapshot t i recs).logs.scan (termIndexToFileName t i ≤ ·) =
      [(termIndexToFileName t i, [recs])] := by
    rw [hlogs, scan_insert_last le_rfl fun f hf ↦ (hmax f hf).le, scan_eq_nil_iff.mpr, nil_append]
    intro f hf
    rw [lookup_erase_eq_ite, lookup_eq_none_iff.mpr fun h ↦ not_lt.mpr hf (hmax f h), ite_self]
  rw [read_of_mem (by rw [hfirst]; exact hvalid.complete), hfirst, hscan, hsnap]
  rfl

end Snapshot

end Dir

namespace Persist

variable {p q : Persist ι} {t : Term} {i j k : Index} {e : LogEntry}

/-- The reader of a log next to the snapshot at `(t, i)` has come to the entry `j`. -/
structure ReadTo (p : Persist ι) (t : Term) (i j : Index) (q : Persist ι) : Prop where
  lastIndex : q.lastIndex = j
  lastTerm : q.lastTerm = if j = i then t else ((p.lookup j).map LogEntry.term).getD 0
  lastSnap : q.lastSnap = some (t, i)
  base : (q.baseTerm, q.baseIndex) = (t, i)
  entries : ∀ k, q.lookup k = if i < k ∧ k ≤ j then (p.lookup k).map untyped else none

theorem readTo_ofSnap (p : Persist ι) (f : FileName) (t : Term) (i : Index) :
    p.ReadTo t i i (ofSnap (some (f, t, i))) where
  lastIndex := rfl
  lastTerm := (if_pos rfl).symm
  lastSnap := rfl
  base := rfl
  entries := fun k ↦ by rw [if_neg (by lia)]; rfl

/-- The next entry is read. -/
theorem ReadTo.entry (h : p.ReadTo t i j q) (hij : i ≤ j)
    (he : p.lookup (j + 1) = some e) (hindex : e.index = j + 1) :
    p.ReadTo t i (j + 1) (q.replay (.entry e)) := by
  have hlater : ∀ k, j < k → q.lookup k = none := by
    intro k hk
    rw [h.entries, if_neg (by lia)]
  have hreplay : q.replay (.entry e) = q.addToLogTail (untyped e) := by
    rw [replay, if_pos ⟨by lia, Or.inr (by rw [h.lastIndex, hindex])⟩]
    rfl
  obtain ⟨⟨tail, hadd⟩, hlookup⟩ := addToLogTail_spec (e := untyped e) (fun k hk ↦ by
      change e.index ≤ k at hk
      rw [hlater k (by lia), h.lastIndex]
      simp only [isSome_none, Bool.false_eq_true, false_iff]
      lia)
    (by
      rw [hlater (untyped e).index (by change j < e.index; lia)]
      exact some_ne_none _ ∘ Eq.symm)
  have huntyped : (untyped e).index = j + 1 := hindex
  rw [huntyped] at hlookup
  rw [hreplay]
  refine ⟨?_, ?_, ?_, ?_, fun k ↦ ?_⟩
  · rw [hadd]
    exact hindex
  · rw [hadd, if_neg (by lia), he]
    rfl
  · rw [hadd]
    exact h.lastSnap
  · rw [hadd]
    exact h.base
  · rw [hlookup]
    split
    · next hk => rw [if_pos (by lia), hk, he]; rfl
    · split
      · rw [if_neg (by lia)]
      · rw [h.entries]
        split
        · rw [if_pos (by lia)]
        · rw [if_neg (by lia)]

/-- All entries after the snapshot are read, if the writer looked far enough. -/
theorem ReadTo.entriesFrom (hp : p.LogInv) (hi : p.snapPlace.2 ≤ i) {n : ℕ} {j : Index}
    {q : Persist ι} (h : p.ReadTo t i j q) (hij : i ≤ j) (hj : j ≤ p.lastIndex)
    (hn : p.lastIndex ≤ j + n) :
    p.ReadTo t i p.lastIndex
      (((Server.entriesFrom p n (j + 1)).map Record.entry).foldl replay q) := by
  induction n generalizing j q with
  | zero =>
    obtain rfl : j = p.lastIndex := le_antisymm hj hn
    exact h
  | succ n ih =>
    rw [Server.entriesFrom]
    rcases hlookup : p.lookup (j + 1) with _ | e
    · -- the log ends here
      have hpresent := hp.present (j + 1) (by lia)
      rw [hlookup] at hpresent
      obtain rfl : j = p.lastIndex := by
        simp only [isSome_none, Bool.false_eq_true, false_iff] at hpresent
        lia
      exact h
    · have hpresent := (hp.present (j + 1) (by lia)).mp (by rw [hlookup]; rfl)
      exact ih (h.entry hij hlookup (hp.index _ e hlookup)) (by lia) hpresent (by lia)

theorem LogInv.lastIndex_le (hp : p.LogInv) (hi : p.snapPlace.2 ≤ i) :
    p.lastIndex ≤ i + p.logTail.entries.length := by
  have hsub : range' (i + 1) (p.lastIndex - i) ⊆ p.logTail.keys := by
    intro k hk
    rw [mem_range'_1] at hk
    have hsome := (hp.present k (by lia)).mpr (by lia)
    exact mem_keys.mp (lookup_isSome.mp hsome)
  have hle := (subperm_of_subset nodup_range' hsub).length_le
  rw [length_range', AList.keys, keys, length_map] at hle
  lia

theorem lookup_trimLogTail_of_lt (hk : i < k) :
    (p.trimLogTail i).lookup k = p.lookup k := by
  unfold trimLogTail
  split
  · rw [lookup, deleteEntries, lookup_foldl_erase, if_neg]
    · rfl
    · rw [mem_range'_1]
      lia
  · rfl

theorem lookup_of_trimLogTail
    (h : (p.trimLogTail i).lookup k = some e) : p.lookup k = some e := by
  unfold trimLogTail at h
  split at h
  · rw [lookup, deleteEntries, lookup_foldl_erase] at h
    split at h
    · cases h
    · exact h
  · exact h

theorem trimLogTail_eq (p : Persist ι) (i : Index) :
    ∃ tail first, p.trimLogTail i = { p with logTail := tail, firstLogTailIndex := first } := by
  unfold trimLogTail
  split
  · exact ⟨_, _, rfl⟩
  · exact ⟨_, _, rfl⟩

/-- **After a snapshot, the log next to it is read back**, together with the term and the vote. -/
theorem mirrors_snapshot (hp : p.LogInv) (hi : p.snapPlace.2 ≤ i)
    (he : p.lookup i = some e) (hterm : e.term = t) (f : FileName) :
    LogInv { p.trimLogTail i with lastSnap := some (t, i) } ∧
    Mirrors { p.trimLogTail i with lastSnap := some (t, i) }
      ((FsPersist.trimmedRecords p i).foldl replay (ofSnap (some (f, t, i)))) := by
  have hlast : i ≤ p.lastIndex := by
    rcases hi.eq_or_lt with heq | hlt
    · exact heq ▸ hp.le
    · exact (hp.present i hlt).mp (by rw [he]; rfl)
  have hread := ReadTo.entriesFrom hp hi (p.readTo_ofSnap f t i) le_rfl hlast (hp.lastIndex_le hi)
  obtain ⟨tail, first, htrim⟩ := p.trimLogTail_eq i
  have hkeep : ∀ k, i < k → tail.lookup k = p.lookup k := by
    intro k hk
    have h := lookup_trimLogTail_of_lt (p := p) hk
    rw [htrim] at h
    exact h
  have hsub : ∀ k e', tail.lookup k = some e' → p.lookup k = some e' := by
    intro k e' h
    apply lookup_of_trimLogTail
    rw [htrim]
    exact h
  rw [htrim, FsPersist.trimmedRecords, foldl_append]
  refine ⟨⟨hlast, ?_, ?_, ?_, ?_, hp.base.trans hi, ?_⟩,
    ⟨rfl, rfl, hread.lastIndex, ?_, ?_, ?_, ?_⟩⟩
  · intro k hk
    change (tail.lookup k).isSome ↔ _
    rw [hkeep k hk]
    exact hp.present k (hi.trans_lt hk)
  · exact fun k e' h ↦ hp.index k e' (hsub k e' h)
  · exact fun e' h ↦ hp.lastTerm e' (hsub _ e' h)
  · intro heq
    change p.lastIndex = i at heq
    rw [← heq] at he
    exact (hp.lastTerm e he).symm.trans hterm
  · -- the snapshot is newer than the base, since the entry at its place is in the log
    intro heq
    change p.baseIndex = i at heq
    have hplace : p.snapPlace.2 = i := le_antisymm hi (heq ▸ hp.base)
    rw [(hp.opened (heq.trans hplace.symm)).2 i hplace.ge] at he
    cases he
  · refine hread.lastTerm.trans ?_
    split
    · next heq => rw [← hterm]; exact hp.lastTerm e (heq ▸ he)
    · obtain ⟨e', he'⟩ := isSome_iff_exists.mp ((hp.present p.lastIndex (by lia)).mpr le_rfl)
      rw [he', map_some, getD_some]
      exact hp.lastTerm e' he'
  · exact hread.lastSnap
  · exact hread.base
  · intro k
    refine (hread.entries k).trans ?_
    change _ = if i < k then (tail.lookup k).map untyped else none
    by_cases hk : i < k
    · rw [if_pos hk, hkeep k hk]
      split
      · rfl
      · next hlate =>
        have hnone : p.lookup k = none := by
          rw [← not_isSome_iff_eq_none, hp.present k (hi.trans_lt hk)]
          exact fun h ↦ hlate ⟨hk, h⟩
        rw [hnone]
        rfl
    · rw [if_neg hk, if_neg fun h ↦ hk h.1]

end Persist

end Vanadium.Raft
