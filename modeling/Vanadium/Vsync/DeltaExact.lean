import Vanadium.Vsync.LogMerge

/-!
# Deltas are complete and sound

Which stored records a responder sends. The ranges of phase 2 are the hulls of the gaps between the
vectors that were diffed; the merge of phase 3 goes through every stored record of these ranges
once; and the filter keeps those that the initiator wants and lacks. Together, the records sent are
exactly the wanted ones in the hulls, under conditions that cannot be weakened
(`sendDataDeltas_exact_iff`).
-/

namespace Vanadium.Vsync

open Foundations Table List
open Option hiding map_map mem_map mem_map_of_injective or_assoc

/-! ## Ranges as hulls of gaps -/

/-- A set of gaps: for each device, pairs of a known and a larger reported generation. -/
abbrev Gaps : Type := DevId → ℕ → ℕ → Prop

/-- The gaps between two vectors. -/
def VectorGap (respgv initgv : GenVector) : Gaps := fun dev lo hi ↦
  AList.lookup dev respgv = some hi ∧ lo = initgv.get dev ∧ lo < hi

/-- The range of each device is the smallest that contains its gaps. -/
structure IsHull (gap : Gaps) (diff : GenRangeVector) : Prop where
  covers : ∀ dev lo hi, gap dev lo hi →
    ∃ r, AList.lookup dev diff = some r ∧ r.min ≤ lo + 1 ∧ hi ≤ r.max
  min_tight : ∀ dev r, AList.lookup dev diff = some r → ∃ lo hi, gap dev lo hi ∧ r.min = lo + 1
  max_tight : ∀ dev r, AList.lookup dev diff = some r → ∃ lo hi, gap dev lo hi ∧ r.max = hi

section Hull

variable {gap gap' : Gaps} {diff : GenRangeVector}

theorem isHull_empty : IsHull (fun _ _ _ ↦ False) ∅ :=
  ⟨fun _ _ _ h ↦ h.elim, fun _ _ h ↦ by simp at h, fun _ _ h ↦ by simp at h⟩

theorem IsHull.congr (h : IsHull gap diff) (hgap : ∀ dev lo hi, gap dev lo hi ↔ gap' dev lo hi) :
    IsHull gap' diff := by
  have : gap = gap' := by
    funext dev lo hi
    exact propext (hgap dev lo hi)
  rwa [← this]

/-- One update widens the range of one device by one gap. -/
theorem IsHull.updateDevRange (h : IsHull gap diff) (devid : DevId) (rgen gen : ℕ) :
    IsHull (fun dev lo hi ↦ gap dev lo hi ∨ (dev = devid ∧ lo = gen ∧ hi = rgen ∧ gen < rgen))
      (updateDevRange devid rgen gen diff) := by
  rw [Vsync.updateDevRange]
  by_cases hlt : gen < rgen
  · have hinsert : ∀ r : GenRange, r.min ≤ gen + 1 → rgen ≤ r.max →
        (∀ lo hi, gap devid lo hi → r.min ≤ lo + 1 ∧ hi ≤ r.max) →
        (r.min = gen + 1 ∨ ∃ lo hi, gap devid lo hi ∧ r.min = lo + 1) →
        (r.max = rgen ∨ ∃ lo hi, gap devid lo hi ∧ r.max = hi) →
        IsHull (fun dev lo hi ↦ gap dev lo hi ∨ (dev = devid ∧ lo = gen ∧ hi = rgen ∧ gen < rgen))
          (diff.insert devid r) := by
      intro r hmin hmax hold hmint hmaxt
      refine ⟨?_, ?_, ?_⟩
      · intro dev lo hi hgap
        rw [lookup_insert_eq_ite]
        by_cases hdev : dev = devid
        · subst hdev
          refine ⟨r, if_pos rfl, ?_⟩
          rcases hgap with hgap | ⟨-, rfl, rfl, -⟩
          exacts [hold lo hi hgap, ⟨hmin, hmax⟩]
        · rw [if_neg hdev]
          exact h.covers dev lo hi (hgap.resolve_right fun hnew ↦ hdev hnew.1)
      · intro dev r' hr'
        rw [lookup_insert_eq_ite] at hr'
        split_ifs at hr' with hdev
        · obtain rfl := some.inj hr'
          subst hdev
          rcases hmint with heq | ⟨lo, hi, hgap, heq⟩
          exacts [⟨gen, rgen, .inr ⟨rfl, rfl, rfl, hlt⟩, heq⟩, ⟨lo, hi, .inl hgap, heq⟩]
        · obtain ⟨lo, hi, hgap, heq⟩ := h.min_tight dev r' hr'
          exact ⟨lo, hi, .inl hgap, heq⟩
      · intro dev r' hr'
        rw [lookup_insert_eq_ite] at hr'
        split_ifs at hr' with hdev
        · obtain rfl := some.inj hr'
          subst hdev
          rcases hmaxt with heq | ⟨lo, hi, hgap, heq⟩
          exacts [⟨gen, rgen, .inr ⟨rfl, rfl, rfl, hlt⟩, heq⟩, ⟨lo, hi, .inl hgap, heq⟩]
        · obtain ⟨lo, hi, hgap, heq⟩ := h.max_tight dev r' hr'
          exact ⟨lo, hi, .inl hgap, heq⟩
    rw [if_pos hlt]
    rcases hr : diff.lookup devid with _ | r
    · refine hinsert ⟨gen + 1, rgen, 0⟩ le_rfl le_rfl (fun lo hi hgap ↦ ?_) (.inl rfl) (.inl rfl)
      obtain ⟨r, hr', -⟩ := h.covers devid lo hi hgap
      rw [hr] at hr'
      cases hr'
    · refine hinsert ⟨_, _, r.cur⟩ ?_ ?_ (fun lo hi hgap ↦ ?_) ?_ ?_
      · dsimp only
        split_ifs <;> omega
      · dsimp only
        split_ifs <;> omega
      · obtain ⟨r', hr', hmin, hmax⟩ := h.covers devid lo hi hgap
        obtain rfl : r = r' := some.inj (hr.symm.trans hr')
        dsimp only
        constructor <;> split_ifs <;> omega
      · dsimp only
        split_ifs
        exacts [Or.inl rfl, .inr (h.min_tight devid r hr)]
      · dsimp only
        split_ifs
        exacts [Or.inl rfl, .inr (h.max_tight devid r hr)]
  · rw [if_neg hlt]
    exact h.congr fun dev lo hi ↦ ⟨Or.inl, fun hgap ↦ hgap.resolve_right fun hnew ↦ hlt hnew.2.2.2⟩

theorem IsHull.foldl {σ ε : Type} (d : σ → GenRangeVector) {f : σ → ε → σ} {g : ε → Gaps}
    {l : List ε} {x : σ} (h : IsHull gap (d x)) (hf : ∀ gap x e, IsHull gap (d x) →
      IsHull (fun dev lo hi ↦ gap dev lo hi ∨ g e dev lo hi) (d (f x e))) :
    IsHull (fun dev lo hi ↦ gap dev lo hi ∨ ∃ e ∈ l, g e dev lo hi) (d (l.foldl f x)) := by
  induction l generalizing gap x with
  | nil => exact h.congr fun dev lo hi ↦ by simp
  | cons e l ih => exact (ih (hf gap x e h)).congr fun dev lo hi ↦ by simp [or_assoc]

/-- **`diffGenVectors` adds the gaps between its two vectors.** -/
theorem IsHull.diffGenVectors (h : IsHull gap diff) (respgv initgv : GenVector) :
    IsHull (fun dev lo hi ↦ gap dev lo hi ∨ VectorGap respgv initgv dev lo hi)
      (diffGenVectors respgv initgv diff) := by
  refine (IsHull.foldl (fun diff ↦ diff) (IsHull.foldl (fun diff ↦ diff) h
    (g := fun e dev lo hi ↦ dev = e.1 ∧ lo = e.2 ∧ respgv.lookup e.1 = some hi ∧ lo < hi) ?_)
    (g := fun e dev lo hi ↦ dev = e.1 ∧ lo = 0 ∧ hi = e.2 ∧ initgv.lookup e.1 = none ∧ lo < hi)
    ?_).congr fun dev lo hi ↦ ?_
  · intro gap diff e h
    rcases hr : respgv.lookup e.1 with _ | rgen
    · exact h.congr fun dev lo hi ↦ by simp
    · refine (h.updateDevRange e.1 rgen e.2).congr fun dev lo hi ↦ ?_
      simp only [some.injEq]
      constructor
      · rintro (h | ⟨rfl, rfl, rfl, hlt⟩)
        exacts [Or.inl h, .inr ⟨rfl, rfl, rfl, hlt⟩]
      · rintro (h | ⟨rfl, rfl, rfl, hlt⟩)
        exacts [Or.inl h, .inr ⟨rfl, rfl, rfl, hlt⟩]
  · intro gap diff e h
    split
    · next hi =>
      refine (h.updateDevRange e.1 e.2 0).congr fun dev lo hi' ↦ ?_
      rw [isNone_iff_eq_none] at hi
      constructor
      · rintro (h | ⟨rfl, rfl, rfl, hlt⟩)
        exacts [Or.inl h, .inr ⟨rfl, rfl, rfl, hi, hlt⟩]
      · rintro (h | ⟨rfl, rfl, rfl, -, hlt⟩)
        exacts [Or.inl h, .inr ⟨rfl, rfl, rfl, hlt⟩]
    · next hi =>
      rw [isNone_iff_eq_none] at hi
      exact h.congr fun dev lo hi' ↦
        ⟨Or.inl, fun hgap ↦ hgap.resolve_right fun hnew ↦ hi hnew.2.2.2.1⟩
  rw [or_assoc, VectorGap, GenVector.get]
  refine or_congr_right ⟨?_, ?_⟩
  · rintro (⟨⟨d, g⟩, he, rfl, rfl, hlook, hlt⟩ | ⟨⟨d, g⟩, he, rfl, rfl, rfl, hnone, hlt⟩)
    · rw [mem_entries_iff.mp he]
      exact ⟨hlook, rfl, hlt⟩
    · rw [hnone]
      exact ⟨mem_entries_iff.mp he, rfl, hlt⟩
  · rintro ⟨hlook, rfl, hlt⟩
    rcases hinit : initgv.lookup dev with _ | g
    · exact .inr ⟨⟨dev, hi⟩, mem_entries_iff.mpr hlook, rfl, rfl, rfl, hinit, by rwa [hinit] at hlt⟩
    · rw [hinit] at hlt
      exact .inl ⟨⟨dev, g⟩, mem_entries_iff.mpr hinit, rfl, rfl, hlook, hlt⟩

end Hull

/-! ## The vectors that are diffed -/

/-- The vector that the responder uses at a requested prefix: that of its deepest non-empty prefix
which covers it, or only its own generation if there is none. -/
def IsStart (id : DevId) (respGen : ℕ) (respVecs : Knowledge) (pfx : Prefix) (respgv : GenVector) :
    Prop :=
  (∃ rp, AList.lookup rp respVecs = some respgv ∧ rp ≠ [] ∧ rp <+: pfx ∧
    ∀ rp' ∈ respVecs.keys, rp' <+: pfx → rp' <+: rp) ∨
  ((∀ rp ∈ respVecs.keys, rp <+: pfx → rp = []) ∧ respgv = AList.insert id respGen ∅)

/-- The vectors that are diffed for a requested prefix: those below it, and the one at it. -/
def Relevant (id : DevId) (respGen : ℕ) (respVecs : Knowledge) (pfx : Prefix)
    (respgv : GenVector) : Prop :=
  (∃ rp, AList.lookup rp respVecs = some respgv ∧ pfx <+: rp ∧ rp ≠ pfx) ∨
    IsStart id respGen respVecs pfx respgv

/-- The gaps for one requested prefix. -/
def PrefixGap (id : DevId) (respGen : ℕ) (respVecs initVecs : Knowledge) (pfx : Prefix) : Gaps :=
  fun dev lo hi ↦ ∃ respgv, Relevant id respGen respVecs pfx respgv ∧
    VectorGap respgv ((AList.lookup pfx initVecs).getD ∅) dev lo hi

variable {respgv : GenVector}

section Prefixes

variable {id : DevId} {respGen : ℕ} {respVecs initVecs : Knowledge} {pfx : Prefix}
  (acc : GenRangeVector × Knowledge)

theorem mem_keys_iff_extract {vec : Knowledge} {p : Prefix} :
    p ∈ vec.keys ↔ p ∈ extractAndSortPrefixes vec := by
  rw [extractAndSortPrefixes, mem_insertionSort]

theorem prefix_and_not_iff {p q : Prefix} : p <+: q ∧ ¬q <+: p ↔ p <+: q ∧ q ≠ p := by
  refine and_congr_right fun hpq ↦ not_congr ⟨fun hqp ↦ ?_, fun h ↦ h ▸ prefix_rfl⟩
  exact hqp.eq_of_length (le_antisymm hqp.length_le hpq.length_le)

/-- The code's choice of the vector at a requested prefix. It takes the empty string for an absent
starting point. -/
theorem isStart_iff :
    IsStart id respGen respVecs pfx respgv ↔ respgv = startVec id respGen respVecs pfx := by
  have hmem : ∀ {p}, p ∈ extractAndSortPrefixes respVecs ↔ p ∈ respVecs.keys :=
    mem_keys_iff_extract.symm
  have hspec := deepestPrefix_spec (p := pfx) (strictSorted_extractAndSortPrefixes respVecs)
  rw [IsStart, startVec]
  by_cases hnil : deepestPrefix (extractAndSortPrefixes respVecs) pfx = []
  · have hnone : ∀ rp ∈ respVecs.keys, rp <+: pfx → rp = [] := by
      intro rp hrp hpre
      rcases hspec with ⟨-, hnone⟩ | ⟨-, -, hdeep⟩
      · exact absurd hpre (hnone rp (hmem.mpr hrp))
      · have h := hdeep rp (hmem.mpr hrp) hpre
        rwa [hnil, prefix_nil] at h
    rw [if_pos hnil]
    constructor
    · rintro (⟨rp, hrp, hne, hpre, -⟩ | ⟨-, rfl⟩)
      · exact absurd (hnone rp (mem_keys_iff.mpr ⟨respgv, hrp⟩) hpre) hne
      · rfl
    · rintro rfl
      exact .inr ⟨hnone, rfl⟩
  · obtain ⟨hin, hpre, hdeep⟩ := hspec.resolve_left fun h ↦ hnil h.1
    obtain ⟨gv, hgv⟩ := mem_extractAndSortPrefixes.mp hin
    rw [if_neg hnil, hgv, getD_some]
    constructor
    · rintro (⟨rp, hrp, -, hrppre, hrpdeep⟩ | ⟨hnone, -⟩)
      · have h₁ := hrpdeep _ (hmem.mp hin) hpre
        have h₂ := hdeep rp (mem_extractAndSortPrefixes.mpr ⟨respgv, hrp⟩) hrppre
        have heq := h₁.eq_of_length (le_antisymm h₁.length_le h₂.length_le)
        rw [← heq, hgv] at hrp
        exact (some.inj hrp).symm
      · exact absurd (hnone _ (hmem.mp hin) hpre) hnil
    · rintro rfl
      exact .inl ⟨_, hgv, hnil, hpre, fun rp' hrp' hpre' ↦ hdeep rp' (hmem.mpr hrp') hpre'⟩

theorem isHull_foldl_deltaBelow {initgv : GenVector} {gap : Gaps}
    (h : IsHull gap acc.1) :
    IsHull (fun dev lo hi ↦ gap dev lo hi ∨ ∃ respgv,
        (∃ rp, respVecs.lookup rp = some respgv ∧ pfx <+: rp ∧ rp ≠ pfx) ∧
          VectorGap respgv initgv dev lo hi)
      ((extractAndSortPrefixes respVecs).foldl (deltaBelow respVecs pfx initgv) acc).1 := by
  have hfold := IsHull.foldl Prod.fst h (l := extractAndSortPrefixes respVecs)
    (f := deltaBelow respVecs pfx initgv)
    (g := fun rp dev lo hi ↦ (pfx <+: rp ∧ ¬rp <+: pfx) ∧
      VectorGap ((respVecs.lookup rp).getD ∅) initgv dev lo hi)
    (by
      intro gap acc rp h
      rw [deltaBelow]
      split
      · next hrp =>
        exact (h.diffGenVectors _ _).congr fun dev lo hi ↦ by
          simp only [hrp, not_false_eq_true, true_and]
      · next hrp => exact h.congr fun dev lo hi ↦ by simp only [hrp, false_and, or_false])
  refine hfold.congr fun dev lo hi ↦ or_congr_right ⟨?_, ?_⟩
  · rintro ⟨rp, hrp, hbelow, hgap⟩
    obtain ⟨gv, hgv⟩ := mem_extractAndSortPrefixes.mp hrp
    rw [hgv, getD_some] at hgap
    exact ⟨gv, ⟨rp, hgv, prefix_and_not_iff.mp hbelow⟩, hgap⟩
  · rintro ⟨respgv, ⟨rp, hrp, hbelow⟩, hgap⟩
    refine ⟨rp, mem_extractAndSortPrefixes.mpr ⟨respgv, hrp⟩, prefix_and_not_iff.mpr hbelow, ?_⟩
    rwa [hrp, getD_some]

theorem isHull_deltaPrefix {gap : Gaps} (h : IsHull gap acc.1) :
    IsHull (fun dev lo hi ↦ gap dev lo hi ∨ PrefixGap id respGen respVecs initVecs pfx dev lo hi)
      (deltaPrefix id respGen respVecs initVecs acc pfx).1 := by
  refine ((isHull_foldl_deltaBelow acc h).diffGenVectors
    (startVec id respGen respVecs pfx) _).congr fun dev lo hi ↦ ?_
  rw [or_assoc, PrefixGap]
  refine or_congr_right ⟨?_, ?_⟩
  · rintro (⟨respgv, hrp, hgap⟩ | hgap)
    · exact ⟨respgv, .inl hrp, hgap⟩
    · exact ⟨_, .inr (isStart_iff.mpr rfl), hgap⟩
  · rintro ⟨respgv, hrp | hstart, hgap⟩
    · exact .inl ⟨respgv, hrp, hgap⟩
    · rw [isStart_iff.mp hstart] at hgap
      exact .inr hgap

/-! ## Phase 2 as a whole -/

/-- The gaps for all the outermost requested prefixes. -/
def RequestGap (id : DevId) (respGen : ℕ) (respVecs initVecs : Knowledge) : Gaps :=
  fun dev lo hi ↦ ∃ pfx, Outermost (extractAndSortPrefixes initVecs) pfx ∧
    PrefixGap id respGen respVecs initVecs pfx dev lo hi

/-- The ranges that `computeDataDeltas` returns: for each device the hull of its gaps. -/
theorem computeDataDeltas_spec {s : SyncService}
    (hgen : s.copyDbGenInfo [] = .ok (respVecs, respGen)) (hne : initVecs.keys ≠ []) :
    ∃ diff out, computeDataDeltas s initVecs = .ok (diff, out) ∧
      IsHull (RequestGap s.id respGen respVecs initVecs) diff := by
  obtain ⟨pfx, pfxs, hpfxs⟩ : ∃ pfx pfxs, extractAndSortPrefixes initVecs = pfx :: pfxs := by
    refine exists_cons_of_ne_nil fun hnil ↦ hne ?_
    rw [← perm_nil, ← hnil]
    exact (perm_insertionSort _ _).symm
  have hsorted := strictSorted_extractAndSortPrefixes initVecs
  rw [hpfxs] at hsorted
  have heq : computeDataDeltas s initVecs
      = .ok (((pfx :: pfxs).filter fun q ↦ Outermost (pfx :: pfxs) q).foldl
          (deltaPrefix s.id respGen respVecs initVecs) (∅, ∅)) := by
    rw [computeDataDeltas, hgen, hpfxs]
    dsimp only
    rw [foldl_skipNested _ hsorted]
  refine ⟨_, _, heq, (IsHull.foldl Prod.fst (x := (∅, ∅)) isHull_empty fun gap acc p h ↦
    isHull_deltaPrefix acc h).congr fun dev lo hi ↦ ?_⟩
  rw [false_or, RequestGap, hpfxs]
  refine exists_congr fun p ↦ and_congr_left fun _ ↦ ?_
  rw [mem_filter, decide_eq_true_eq]
  exact ⟨fun h ↦ h.2, fun h ↦ ⟨h.1, h⟩⟩

end Prefixes

/-! ## Phase 3: the filter -/

/-- The initiator wants a record and lacks it: some requested prefix covers the key, and the vector
of no such prefix has the generation. -/
def Wanted (initVecs : Knowledge) (key : ByteString) (dev : DevId) (gen : ℕ) : Prop :=
  (∃ p ∈ initVecs.keys, p <+: key) ∧
    ∀ p gv, AList.lookup p initVecs = some gv → p <+: key → gv.get dev < gen

theorem foldl_filterPrefix (initVecs : Knowledge) (key : ByteString) (dev : DevId)
    (l : List Prefix) (acc : Bool × ℕ) :
    ((l.foldl (filterPrefix initVecs key dev) acc).1 = false ↔
        acc.1 = false ∨ ∃ p ∈ l, p <+: key) ∧
      ∀ g, (l.foldl (filterPrefix initVecs key dev) acc).2 < g ↔ acc.2 < g ∧ ∀ p ∈ l, p <+: key →
        GenVector.get ((initVecs.lookup p).getD ∅) dev < g := by
  induction l generalizing acc with
  | nil => simp
  | cons p l ih =>
    rw [foldl_cons, filterPrefix]
    split
    · next hp =>
      refine ⟨(ih _).1.trans (by simp [hp]), fun g ↦ ((ih _).2 g).trans ?_⟩
      rw [forall_mem_cons, ← and_assoc]
      refine and_congr_left fun _ ↦ ?_
      dsimp only
      split_ifs with hlt
      · exact ⟨fun h ↦ ⟨by omega, fun _ ↦ h⟩, fun h ↦ h.2 hp⟩
      · exact ⟨fun h ↦ ⟨h, fun _ ↦ by omega⟩, fun h ↦ h.1⟩
    · next hp =>
      exact ⟨(ih acc).1.trans (by simp [hp]), fun g ↦ ((ih acc).2 g).trans (by simp [hp])⟩

variable {rec : LocalLogRec} {st : Store} {recs : List LocalLogRec} {dev : DevId} {key : ByteString}
  {gen : ℕ}

theorem filterLogRec_spec (initVecs : Knowledge)
    (hkey : stripFirstKeyPartOrDie rec.metadata.objId = .ok key) :
    ∃ b, filterLogRec rec initVecs (extractAndSortPrefixes initVecs) = .ok b ∧
      (b = false ↔ Wanted initVecs key rec.metadata.id rec.metadata.gen) := by
  obtain ⟨hcover, hmax⟩ := foldl_filterPrefix initVecs key rec.metadata.id
    (extractAndSortPrefixes initVecs) (true, 0)
  rw [filterLogRec, hkey]
  refine ⟨_, rfl, ?_⟩
  have hresult : ∀ (m : ℕ) (b : Bool), (if rec.metadata.gen ≤ m then true else b) = false ↔
      b = false ∧ m < rec.metadata.gen := by
    intro m b
    split_ifs with h <;> simp <;> omega
  rw [hresult, hcover, hmax, Wanted]
  constructor
  · rintro ⟨hcover | ⟨p, hp, hpre⟩, -, hlt⟩
    · cases hcover
    · refine ⟨⟨p, mem_keys_iff_extract.mpr hp, hpre⟩, fun q gv hgv hq ↦ ?_⟩
      have h := hlt q (mem_extractAndSortPrefixes.mpr ⟨gv, hgv⟩) hq
      rwa [hgv] at h
  · rintro ⟨⟨p, hp, hpre⟩, hlt⟩
    have hall : ∀ q ∈ extractAndSortPrefixes initVecs, q <+: key →
        GenVector.get ((initVecs.lookup q).getD ∅) rec.metadata.id < rec.metadata.gen := by
      intro q hq hqpre
      obtain ⟨gv, hgv⟩ := mem_extractAndSortPrefixes.mp hq
      rw [hgv]
      exact hlt q gv hgv hqpre
    have hp' := mem_keys_iff_extract.mp hp
    exact ⟨Or.inr ⟨p, hp', hpre⟩, (Nat.zero_le _).trans_lt (hall p hp' hpre), hall⟩

/-! ## Phase 3 as a whole -/

/-- What the responder relies on when it sends data records: each has a key of two parts, and the
value of a version that was put is stored. -/
structure Store.DataLogOk (st : Store) : Prop where
  keyed : st.LogKeyed
  key : ∀ dev gen rec, AList.lookup (logRecKey logDataPrefix dev gen) st.log = some rec →
    ∃ key, stripFirstKeyPartOrDie rec.metadata.objId = .ok key
  value : ∀ dev gen rec, AList.lookup (logRecKey logDataPrefix dev gen) st.log = some rec →
    rec.metadata.delete = false → rec.metadata.recType = .node →
    ∃ v, AList.lookup (rec.metadata.objId, rec.metadata.curVers) st.values = some v

theorem metadata_of_makeWireLogRec {wireRec : LogRec}
    (h : makeWireLogRec st false rec = .ok wireRec) : wireRec.metadata = rec.metadata := by
  rw [makeWireLogRec, if_neg Bool.false_ne_true] at h
  split_ifs at h
  · rcases hv : st.values.lookup (rec.metadata.objId, rec.metadata.curVers) with _ | v
    · simp only [hv] at h
      cases h
    · simp only [hv] at h
      exact (Except.ok.inj h) ▸ rfl
  · exact (Except.ok.inj h) ▸ rfl

theorem map_metadata_of_wire {sent : List LogRec}
    (h : sent.map Except.ok = recs.map (makeWireLogRec st false)) :
    sent.map (·.metadata) = recs.map (·.metadata) := by
  induction sent generalizing recs with
  | nil =>
    obtain rfl := map_eq_nil_iff.mp h.symm
    rfl
  | cons wireRec sent ih =>
    rcases recs with _ | ⟨rec, recs⟩
    · cases h
    · obtain ⟨hw, hrest⟩ := cons.inj h
      rw [map_cons, map_cons, metadata_of_makeWireLogRec hw.symm, ih hrest]

theorem Store.DataLogOk.exists_wire (h : st.DataLogOk)
    (hrec : st.log.lookup (logRecKey logDataPrefix dev gen) = some rec) :
    ∃ wireRec, makeWireLogRec st false rec = .ok wireRec := by
  rw [makeWireLogRec, if_neg Bool.false_ne_true]
  split_ifs with hput
  · obtain ⟨v, hv⟩ := h.value dev gen rec hrec hput.1 hput.2
    simp only [hv]
    exact ⟨_, rfl⟩
  · exact ⟨_, rfl⟩

/-- The records that the filter keeps. -/
def keptLogRecs (initVecs : Knowledge) (recs : List LocalLogRec) : List LocalLogRec :=
  recs.filter fun rec ↦
    match filterLogRec rec initVecs (extractAndSortPrefixes initVecs) with
    | .ok b => !b
    | .error _ => false

theorem mem_keptLogRecs {initVecs : Knowledge}
    (hkey : stripFirstKeyPartOrDie rec.metadata.objId = .ok key) :
    rec ∈ keptLogRecs initVecs recs ↔
      rec ∈ recs ∧ Wanted initVecs key rec.metadata.id rec.metadata.gen := by
  obtain ⟨b, hb, hwanted⟩ := filterLogRec_spec initVecs hkey
  rw [keptLogRecs, mem_filter, hb, ← hwanted, Bool.not_eq_true']

theorem sendLogRecs_spec (initVecs : Knowledge)
    (hkey : ∀ rec ∈ recs, ∃ key, stripFirstKeyPartOrDie rec.metadata.objId = .ok key)
    (hwire : ∀ rec ∈ recs, ∃ wireRec, makeWireLogRec st false rec = .ok wireRec) :
    ∃ sent, sendLogRecs st false initVecs recs = (sent, none) ∧
      sent.map Except.ok = (keptLogRecs initVecs recs).map (makeWireLogRec st false) := by
  induction recs with
  | nil => exact ⟨[], rfl, rfl⟩
  | cons rec recs ih =>
    obtain ⟨⟨key, hk⟩, hkeys⟩ := forall_mem_cons.mp hkey
    obtain ⟨⟨wireRec, hw⟩, hwires⟩ := forall_mem_cons.mp hwire
    obtain ⟨sent, hsent, hmap⟩ := ih hkeys hwires
    obtain ⟨b, hb, -⟩ := filterLogRec_spec initVecs hk
    rw [sendLogRecs, if_neg Bool.false_ne_true, hb]
    rcases b with _ | _
    · refine ⟨wireRec :: sent, by simp only [hw, hsent], ?_⟩
      rw [keptLogRecs, filter_cons_of_pos (by rw [hb]; rfl), map_cons, map_cons, hw,
        hmap, keptLogRecs]
    · refine ⟨sent, hsent, ?_⟩
      rwa [keptLogRecs, filter_cons_of_neg (by rw [hb]; exact Bool.false_ne_true)]

/-! ## The reply -/

/-- The interval that gaps merge into: from the smallest known generation to the largest reported
one. -/
def InRange (gap : Gaps) (dev : DevId) (gen : ℕ) : Prop :=
  (∃ lo hi, gap dev lo hi ∧ lo < gen) ∧ ∃ lo hi, gap dev lo hi ∧ gen ≤ hi

theorem IsHull.inRange_iff {gap : Gaps} {diff : GenRangeVector} (h : IsHull gap diff) :
    InRange gap dev gen ↔ ∃ r, diff.lookup dev = some r ∧ r.min ≤ gen ∧ gen ≤ r.max := by
  constructor
  · rintro ⟨⟨lo, hi, hgap, hlo⟩, lo', hi', hgap', hhi⟩
    obtain ⟨r, hr, hmin, -⟩ := h.covers dev lo hi hgap
    obtain ⟨r', hr', -, hmax⟩ := h.covers dev lo' hi' hgap'
    obtain rfl : r = r' := some.inj (hr.symm.trans hr')
    exact ⟨r, hr, by omega, hhi.trans hmax⟩
  · rintro ⟨r, hr, hmin, hmax⟩
    obtain ⟨lo, hi, hgap, heq⟩ := h.min_tight dev r hr
    obtain ⟨lo', hi', hgap', heq'⟩ := h.max_tight dev r hr
    exact ⟨⟨lo, hi, hgap, by omega⟩, lo', hi', hgap', heq' ▸ hmax⟩

theorem requestGap_le {id : DevId} {respGen b lo hi : ℕ} {respVecs initVecs : Knowledge}
    (hvecs : ∀ e ∈ respVecs.entries, ∀ g ∈ e.2.entries, g.2 ≤ b) (hgen : respGen ≤ b)
    (h : RequestGap id respGen respVecs initVecs dev lo hi) : hi ≤ b := by
  have hle : ∀ {rp gv}, respVecs.lookup rp = some gv → gv.lookup dev = some hi → hi ≤ b :=
    fun hrp hgv ↦ hvecs ⟨_, _⟩ (mem_entries_iff.mpr hrp) ⟨_, _⟩ (mem_entries_iff.mpr hgv)
  obtain ⟨pfx, -, respgv, hrel, hhi, -⟩ := h
  rcases hrel with ⟨rp, hrp, -⟩ | ⟨rp, hrp, -⟩ | ⟨-, rfl⟩
  · exact hle hrp hhi
  · exact hle hrp hhi
  · rw [lookup_insert_eq_ite] at hhi
    split_ifs at hhi
    · exact some.inj hhi ▸ hgen
    · simp at hhi

section Reply

variable {s : SyncService} {st : Store} {initiator : DevId} {initVecs respVecs : Knowledge}
  {respGen : ℕ}

theorem IsHull.ends_iff {gap : Gaps} {diff : GenRangeVector} (h : IsHull gap diff)
    (initiator : DevId) : (∀ e ∈ others initiator diff.entries, e.2.Ends) ↔
      ∀ dev lo hi, dev ≠ initiator → gap dev lo hi → hi + 1 < 2 ^ 64 := by
  constructor
  · intro hends dev lo hi hdev hgap
    obtain ⟨r, hr, -, hmax⟩ := h.covers dev lo hi hgap
    have hrends : r.max + 1 < 2 ^ 64 :=
      hends ⟨dev, r⟩ (mem_filter.mpr ⟨mem_entries_iff.mpr hr, by simpa using hdev⟩)
    omega
  · rintro hgaps ⟨dev, r⟩ he
    obtain ⟨hentry, hne⟩ := mem_filter.mp he
    obtain ⟨lo, hi, hgap, hmax⟩ := h.max_tight dev r (mem_entries_iff.mp hentry)
    have hlt := hgaps dev lo hi (by simpa using hne) hgap
    rwa [← hmax] at hlt

theorem sendDataDeltas_spec (hlog : st.DataLogOk) {diff : GenRangeVector} {out : Knowledge}
    (hdiff : computeDataDeltas s initVecs = .ok (diff, out))
    (hends : ∀ e ∈ others initiator diff.entries, e.2.Ends) :
    ∃ n, ∀ fuel ≥ n, ∃ (merged : List LocalLogRec) (sent : List LogRec),
      sendDataDeltas fuel s st initiator initVecs
        = (sent.map .logRec ++ [.gvs out], .returned none) ∧
      merged.Perm (allRecs st logDataPrefix initiator diff.entries) ∧
      sent.map Except.ok = (keptLogRecs initVecs merged).map (makeWireLogRec st false) := by
  obtain ⟨n, hn⟩ := mergedLogRecs_perm hlog.keyed logDataPrefix initiator hends
  refine ⟨n, fun fuel hfuel ↦ ?_⟩
  obtain ⟨merged, hmerged, hperm⟩ := hn fuel hfuel
  have hstored : ∀ rec ∈ merged, ∃ dev gen,
      st.log.lookup (logRecKey logDataPrefix dev gen) = some rec := by
    intro rec hrec
    obtain ⟨dev, r, i, -, -, -, -, hi⟩ := mem_allRecs.mp (hperm.mem_iff.mp hrec)
    exact ⟨dev, i, hi⟩
  obtain ⟨sent, hsent, hmap⟩ := sendLogRecs_spec initVecs
    (fun rec hrec ↦ (hstored rec hrec).elim fun dev h ↦ h.elim fun gen h ↦ hlog.key dev gen rec h)
    (fun rec hrec ↦ (hstored rec hrec).elim fun dev h ↦ h.elim fun gen h ↦ hlog.exists_wire h)
  refine ⟨merged, sent, ?_, hperm, hmap⟩
  rw [sendDataDeltas, hdiff]
  simp only [filterAndSendDeltas, hmerged, hsent]

/-- Without an end of the loop over the heap there is no complete reply. -/
theorem sendDataDeltas_endless (hlog : st.DataLogOk) {diff : GenRangeVector} {out : Knowledge}
    (hdiff : computeDataDeltas s initVecs = .ok (diff, out))
    (hends : ¬∀ e ∈ others initiator diff.entries, e.2.Ends) (fuel : ℕ) :
    (sendDataDeltas fuel s st initiator initVecs).2 ≠ .returned none := by
  have hrunning := mergedLogRecs_endless hlog.keyed logDataPrefix initiator hends fuel
  rw [sendDataDeltas, hdiff]
  simp only [filterAndSendDeltas, hrunning]
  rcases sendLogRecs st false initVecs _ with ⟨sent, _ | e⟩ <;> simp

/-- Below a requested prefix that covers the key, a vector of the responder closes a gap: it is
diffed with the vector of the outermost requested prefix. -/
theorem inRange_of_covered {id : DevId} {key rp p : ByteString}
    (hwanted : Wanted initVecs key dev gen) (hp : p ∈ initVecs.keys)
    (hpkey : p <+: key) (hrp : respVecs.lookup rp = some respgv) (hrpne : rp ≠ [])
    (hcover : (rp <+: key ∧ ∀ rp' ∈ respVecs.keys, rp' <+: key → rp' <+: rp) ∨ p <+: rp)
    (hle : gen ≤ respgv.get dev) : InRange (RequestGap id respGen respVecs initVecs) dev gen := by
  obtain ⟨pfx, hout, hpfxp⟩ := exists_outermost_prefix (mem_keys_iff_extract.mp hp)
  obtain ⟨gv, hgv⟩ := mem_extractAndSortPrefixes.mp hout.1
  have hpfxkey := hpfxp.trans hpkey
  have hlt : gv.get dev < gen := hwanted.2 pfx gv hgv hpfxkey
  have hrel : Relevant id respGen respVecs pfx respgv := by
    by_cases hbelow : pfx <+: rp ∧ rp ≠ pfx
    · exact .inl ⟨rp, hrp, hbelow⟩
    · -- the responder's prefix then covers the requested one, and it is the deepest that does
      refine .inr (.inl ⟨rp, hrp, hrpne, ?_⟩)
      rcases hcover with ⟨hrpkey, hdeep⟩ | hprp
      · have hrppfx : rp <+: pfx := by
          rcases prefix_or_prefix_of_prefix hrpkey hpfxkey with h | h
          · exact h
          · by_cases heq : rp = pfx
            · exact heq ▸ prefix_rfl
            · exact absurd ⟨h, heq⟩ hbelow
        exact ⟨hrppfx, fun rp' hrp' hpre ↦ hdeep rp' hrp' (hpre.trans hpfxkey)⟩
      · have heq : rp = pfx := by
          by_contra hne
          exact hbelow ⟨hpfxp.trans hprp, hne⟩
        exact ⟨heq ▸ prefix_rfl, fun rp' _ hpre ↦ heq ▸ hpre⟩
  have hlookup : respgv.lookup dev = some (respgv.get dev) := by
    rcases h : respgv.lookup dev with _ | g
    · rw [GenVector.get, h, getD_none] at hle
      omega
    · rw [GenVector.get, h, getD_some]
  have hgap : RequestGap id respGen respVecs initVecs dev (gv.get dev) (respgv.get dev) := by
    refine ⟨pfx, hout, respgv, hrel, hlookup, ?_, hlt.trans_le hle⟩
    rw [hgv, getD_some]
  exact ⟨⟨_, _, hgap, hlt⟩, _, _, hgap, hle⟩

/-- A record that the initiator wants and lacks, which is stored and of another device. -/
structure Missing (st : Store) (initiator : DevId) (initVecs : Knowledge) (dev : DevId) (gen : ℕ)
    (key : ByteString) : Prop where
  stored : ∃ rec, AList.lookup (logRecKey logDataPrefix dev gen) st.log = some rec ∧
    stripFirstKeyPartOrDie rec.metadata.objId = .ok key
  foreign : dev ≠ initiator
  wanted : Wanted initVecs key dev gen

/-- What a reply with the records `sent` is to be. The records sent are, each once, the stored ones
of another device which the initiator wants and lacks and whose generation is in the merged interval
of the device. In particular, one that the initiator wants and lacks is sent if its generation is
known to the responder at its deepest prefix that covers the key, or at a prefix below the requested
one. -/
structure ExactReply (id : DevId) (respGen : ℕ) (respVecs : Knowledge) (st : Store)
    (initiator : DevId) (initVecs : Knowledge) (sent : List LogRec) : Prop where
  nodup : (sent.map fun rec ↦ (rec.metadata.id, rec.metadata.gen)).Nodup
  mem_iff : ∀ wireRec, wireRec ∈ sent ↔ ∃ dev gen rec key,
    AList.lookup (logRecKey logDataPrefix dev gen) st.log = some rec ∧
    makeWireLogRec st false rec = .ok wireRec ∧
    stripFirstKeyPartOrDie rec.metadata.objId = .ok key ∧ dev ≠ initiator ∧
    Wanted initVecs key dev gen ∧ InRange (RequestGap id respGen respVecs initVecs) dev gen
  covered : ∀ dev gen key p rp respgv, Missing st initiator initVecs dev gen key →
    p ∈ initVecs.keys → p <+: key → AList.lookup rp respVecs = some respgv →
    (rp <+: key ∧ (∀ rp' ∈ respVecs.keys, rp' <+: key → rp' <+: rp) ∨ p <+: rp) →
    gen ≤ respgv.get dev →
    (sent.map fun rec ↦ (rec.metadata.id, rec.metadata.gen)).count (dev, gen) = 1

/-- The records sent are the wanted ones in the merged intervals, each once. -/
theorem mem_sent_iff (hlog : st.DataLogOk) {diff : GenRangeVector} {merged : List LocalLogRec}
    {sent : List LogRec} {gap : Gaps} (hhull : IsHull gap diff)
    (hperm : merged.Perm (allRecs st logDataPrefix initiator diff.entries))
    (hwire : sent.map Except.ok = (keptLogRecs initVecs merged).map (makeWireLogRec st false))
    (wireRec : LogRec) : wireRec ∈ sent ↔ ∃ dev gen rec key,
      st.log.lookup (logRecKey logDataPrefix dev gen) = some rec ∧
      makeWireLogRec st false rec = .ok wireRec ∧
      stripFirstKeyPartOrDie rec.metadata.objId = .ok key ∧ dev ≠ initiator ∧
      Wanted initVecs key dev gen ∧ InRange gap dev gen := by
  have hwireMem : wireRec ∈ sent ↔
      ∃ rec ∈ keptLogRecs initVecs merged, makeWireLogRec st false rec = .ok wireRec := by
    rw [← mem_map, ← hwire, mem_map_of_injective fun _ _ ↦ Except.ok.inj]
  rw [hwireMem]
  constructor
  · rintro ⟨rec, hkept, hw⟩
    obtain ⟨dev, r, gen, hr, hdev, hmin, hmax, hrec⟩ :=
      mem_allRecs.mp (hperm.mem_iff.mp (mem_of_mem_filter hkept))
    obtain ⟨key, hkey⟩ := hlog.key dev gen rec hrec
    obtain ⟨hid, hgeneq⟩ := hlog.keyed _ _ _ _ hrec
    have hwanted := ((mem_keptLogRecs hkey).mp hkept).2
    rw [hid, hgeneq] at hwanted
    exact ⟨dev, gen, rec, key, hrec, hw, hkey, hdev, hwanted,
      hhull.inRange_iff.mpr ⟨r, hr, hmin, hmax⟩⟩
  · rintro ⟨dev, gen, rec, key, hrec, hw, hkey, hdev, hwanted, hrange⟩
    obtain ⟨r, hr, hmin, hmax⟩ := hhull.inRange_iff.mp hrange
    obtain ⟨hid, hgeneq⟩ := hlog.keyed _ _ _ _ hrec
    refine ⟨rec, (mem_keptLogRecs hkey).mpr ⟨?_, ?_⟩, hw⟩
    · exact hperm.mem_iff.mpr (mem_allRecs.mpr ⟨dev, r, gen, hr, hdev, hmin, hmax, hrec⟩)
    · rwa [hid, hgeneq]

theorem nodup_sent (hlog : st.DataLogOk) {diff : GenRangeVector} {merged : List LocalLogRec}
    {sent : List LogRec} (hperm : merged.Perm (allRecs st logDataPrefix initiator diff.entries))
    (hwire : sent.map Except.ok = (keptLogRecs initVecs merged).map (makeWireLogRec st false)) :
    (sent.map fun rec ↦ (rec.metadata.id, rec.metadata.gen)).Nodup := by
  have hkept : ((keptLogRecs initVecs merged).map
      fun rec ↦ (rec.metadata.id, rec.metadata.gen)).Nodup :=
    (((hperm.map _).nodup_iff).mpr (nodup_allRecs hlog.keyed diff)).sublist (filter_sublist.map _)
  have hmap := congrArg (map fun m : LogRecMetadata ↦ (m.id, m.gen)) (map_metadata_of_wire hwire)
  rw [map_map, map_map] at hmap
  exact (congrArg List.Nodup hmap).mpr hkept

/-- A record that is missing is sent if and only if its generation is in the merged interval. -/
theorem Missing.count_eq_one_iff (hlog : st.DataLogOk) {gap : Gaps} {sent : List LogRec}
    (hnodup : (sent.map fun rec ↦ (rec.metadata.id, rec.metadata.gen)).Nodup)
    (hmem : ∀ wireRec, wireRec ∈ sent ↔ ∃ dev gen rec key,
      st.log.lookup (logRecKey logDataPrefix dev gen) = some rec ∧
      makeWireLogRec st false rec = .ok wireRec ∧
      stripFirstKeyPartOrDie rec.metadata.objId = .ok key ∧ dev ≠ initiator ∧
      Wanted initVecs key dev gen ∧ InRange gap dev gen)
    (h : Missing st initiator initVecs dev gen key) :
    (sent.map fun rec ↦ (rec.metadata.id, rec.metadata.gen)).count (dev, gen) = 1 ↔
      InRange gap dev gen := by
  constructor
  · intro hcount
    obtain ⟨wireRec, hin, heq⟩ := mem_map.mp (count_pos_iff.mp (hcount ▸ Nat.one_pos))
    obtain ⟨dev', gen', rec, key', hrec, hw, -, -, -, hrange⟩ := (hmem wireRec).mp hin
    obtain ⟨hid, hgeneq⟩ := hlog.keyed _ _ _ _ hrec
    rw [metadata_of_makeWireLogRec hw, hid, hgeneq] at heq
    obtain ⟨rfl, rfl⟩ := Prod.mk.inj heq
    exact hrange
  · intro hrange
    obtain ⟨rec, hrec, hkey⟩ := h.stored
    obtain ⟨wireRec, hw⟩ := hlog.exists_wire hrec
    obtain ⟨hid, hgeneq⟩ := hlog.keyed _ _ _ _ hrec
    have hin : wireRec ∈ sent :=
      (hmem wireRec).mpr ⟨dev, gen, rec, key, hrec, hw, hkey, h.foreign, h.wanted, hrange⟩
    refine count_eq_one_of_mem hnodup (mem_map.mpr ⟨wireRec, hin, ?_⟩)
    rw [metadata_of_makeWireLogRec hw, hid, hgeneq]

/-- **When a reply is complete and sound.** The loop over the heap ends if no generation that is
missing reaches the largest 64-bit number. A vector of the responder at the empty prefix is taken
for an absent one: a missing record that only it covers must be in the merged interval of the
others. -/
theorem sendDataDeltas_exact_iff (hlog : st.DataLogOk)
    (hgen : s.copyDbGenInfo [] = .ok (respVecs, respGen)) (hne : initVecs.keys ≠ [])
    (hpfx : [] ∉ initVecs.keys) :
    (∃ n, ∀ fuel ≥ n, ∃ (sent : List LogRec) (out : Knowledge),
        sendDataDeltas fuel s st initiator initVecs
          = (sent.map .logRec ++ [.gvs out], .returned none) ∧
        ExactReply s.id respGen respVecs st initiator initVecs sent) ↔
      (∀ dev lo hi, dev ≠ initiator → RequestGap s.id respGen respVecs initVecs dev lo hi →
        hi + 1 < 2 ^ 64) ∧
      ∀ dev gen key respgv, Missing st initiator initVecs dev gen key →
        AList.lookup [] respVecs = some respgv → gen ≤ respgv.get dev →
        (∀ rp ∈ respVecs.keys, rp <+: key → rp = []) →
        InRange (RequestGap s.id respGen respVecs initVecs) dev gen := by
  obtain ⟨diff, out, hdiff, hhull⟩ := computeDataDeltas_spec hgen hne
  rw [← hhull.ends_iff initiator]
  constructor
  · rintro ⟨n, hn⟩
    refine ⟨by_contra fun hends ↦ ?_, fun dev gen key respgv hmissing hrp hle hdeep ↦ ?_⟩
    · obtain ⟨sent, out', hsend, -⟩ := hn n le_rfl
      exact sendDataDeltas_endless hlog hdiff hends n (by rw [hsend])
    · obtain ⟨sent, out', -, hexact⟩ := hn n le_rfl
      obtain ⟨p, hp, hpkey⟩ := hmissing.wanted.1
      refine (hmissing.count_eq_one_iff hlog hexact.nodup hexact.mem_iff).mp ?_
      refine hexact.covered dev gen key p [] respgv hmissing hp hpkey hrp
        (.inl ⟨ nil_prefix, ?_⟩) hle
      exact fun rp hrp hpre ↦ hdeep rp hrp hpre ▸ nil_prefix
  · rintro ⟨hends, hroot⟩
    obtain ⟨n, hn⟩ := sendDataDeltas_spec hlog hdiff hends
    refine ⟨n, fun fuel hfuel ↦ ?_⟩
    obtain ⟨merged, sent, hsend, hperm, hwire⟩ := hn fuel hfuel
    have hnodup := nodup_sent hlog hperm hwire
    have hmem := mem_sent_iff hlog hhull hperm hwire
    refine ⟨sent, out, hsend, hnodup, hmem, ?_⟩
    intro dev gen key p rp respgv hmissing hp hpkey hrp hcover hle
    refine (hmissing.count_eq_one_iff hlog hnodup hmem).mpr ?_
    by_cases hrpne : rp = []
    · -- at the empty prefix: it is the deepest one that covers the key
      subst hrpne
      refine hroot dev gen key respgv hmissing hrp hle fun rp' hrp' hpre ↦ ?_
      rcases hcover with ⟨-, hdeep⟩ | hnil
      · exact prefix_nil.mp (hdeep rp' hrp' hpre)
      · exact absurd (prefix_nil.mp hnil ▸ hp) hpfx
    · exact inRange_of_covered hmissing.wanted hp hpkey hrp hrpne hcover hle

end Reply

/-! ## A nested request -/

/-- Device 1, which has learned what `k` says. -/
def serviceWith (k : Knowledge) : SyncService where
  id := 1
  syncState := some ⟨⟨1, 2, 0⟩, ∅, k, ∅, false⟩
  batches := ∅
  watchPrefixes := ∅

/-- Two generations of device 2, known at the prefix `p`. -/
def knownAt (p : Prefix) : Knowledge := AList.insert p (AList.insert 2 2 ∅) ∅

/-- A deletion of the row `a` followed by `c`, which is generation `gen` of device 2. -/
def deletedRow (gen : ℕ) (c : Fin 256) : LocalLogRec :=
  ⟨⟨2, gen, .node, [114, keyPartSep, 97, c], [118], [], 0, true, noBatchId, 1⟩, gen⟩

def nestedStore : Store :=
  { Store.empty with
    log := AList.insert (logRecKey logDataPrefix 2 1) (deletedRow 1 97)
      (AList.insert (logRecKey logDataPrefix 2 2) (deletedRow 2 98) ∅) }

/-- Device 3 knows nothing under `a`, but generation 1 of device 2 under `aa`. -/
def nestedRequest : Knowledge := AList.insert [97] ∅ (AList.insert [97, 97] (AList.insert 2 1 ∅) ∅)

theorem lookup_nestedStore {pfx : ByteString}
    (h : nestedStore.log.lookup (logRecKey pfx dev gen) = some rec) :
    ∃ c, dev = 2 ∧ rec = deletedRow gen c := by
  rw [nestedStore, lookup_insert_eq_ite, lookup_insert_eq_ite] at h
  split_ifs at h with h₁ h₂
  · obtain ⟨-, rfl, rfl⟩ := LogKey.mk.inj h₁
    exact ⟨97, rfl, (some.inj h).symm⟩
  · obtain ⟨-, rfl, rfl⟩ := LogKey.mk.inj h₂
    exact ⟨98, rfl, (some.inj h).symm⟩
  · simp at h

theorem nestedStore_ok : nestedStore.DataLogOk := by
  refine ⟨fun pfx dev gen rec h ↦ ?_, fun dev gen rec h ↦ ?_, fun dev gen rec h hput ↦ ?_⟩
  · obtain ⟨c, rfl, rfl⟩ := lookup_nestedStore h
    exact ⟨rfl, rfl⟩
  · obtain ⟨c, rfl, rfl⟩ := lookup_nestedStore h
    exact ⟨[97, c], rfl⟩
  · obtain ⟨c, rfl, rfl⟩ := lookup_nestedStore h
    cases hput

theorem nestedRequest_lacks : Missing nestedStore 3 nestedRequest 2 2 [97, 98] := by
  refine ⟨⟨deletedRow 2 98, rfl, rfl⟩, by decide, ⟨[97], by decide, by decide⟩,
    fun p gv hgv hpre ↦ ?_⟩
  rw [nestedRequest, lookup_insert_eq_ite, lookup_insert_eq_ite] at hgv
  split_ifs at hgv with h₁ h₂
  · obtain rfl := some.inj hgv
    decide
  · subst h₂
    exact absurd hpre (by decide)
  · simp at hgv

/-- With the generations known at `a`, and at the empty prefix besides, generation 2 is sent to
device 3. -/
theorem nestedRequest_answered : ∃ n, ∀ fuel ≥ n, ∃ (sent : List LogRec) (out : Knowledge),
    sendDataDeltas fuel (serviceWith (AList.insert [] ∅ (knownAt [97]))) nestedStore 3 nestedRequest
      = (sent.map .logRec ++ [.gvs out], .returned none) ∧
    (sent.map fun rec ↦ (rec.metadata.id, rec.metadata.gen)).count (2, 2) = 1 := by
  have hends : ∀ dev lo hi, dev ≠ 3 → RequestGap 1 0
      (Table.mapVals (fun _ gv ↦ AList.insert 1 0 gv) (AList.insert [] ∅ (knownAt [97])))
      nestedRequest dev lo hi → hi + 1 < 2 ^ 64 := by
    intro dev lo hi _ hgap
    have hle : hi ≤ 2 := requestGap_le (by decide) (by decide) hgap
    omega
  obtain ⟨n, hn⟩ := (@sendDataDeltas_exact_iff (serviceWith (AList.insert [] ∅ (knownAt [97])))
      nestedStore 3 nestedRequest _ _ nestedStore_ok rfl (by decide) (by decide)).mpr
    ⟨hends, fun dev gen key respgv hmissing _ _ hdeep ↦ by
      -- every key of the store is below `a`
      obtain ⟨rec, hrec, hkey⟩ := hmissing.stored
      obtain ⟨c, rfl, rfl⟩ := lookup_nestedStore hrec
      obtain rfl := Except.ok.inj hkey
      cases hdeep [97] (by decide) (cons_prefix_cons.mpr ⟨rfl, nil_prefix⟩)⟩
  refine ⟨n, fun fuel hfuel ↦ ?_⟩
  obtain ⟨sent, out, hsend, hexact⟩ := hn fuel hfuel
  exact ⟨sent, out, hsend, hexact.covered 2 2 [97, 98] [97] [97] _ nestedRequest_lacks (by decide)
    (by decide) rfl (.inr (by decide)) (by decide)⟩

/-- With no range there is nothing to send but the vectors. -/
theorem sendDataDeltas_nothing {s : SyncService} {initVecs out : Knowledge} {initiator : DevId}
    {fuel : ℕ} (h : computeDataDeltas s initVecs = .ok (∅, out)) :
    sendDataDeltas fuel s st initiator initVecs = ([.gvs out], .returned none) := by
  have hmerged : mergedLogRecs fuel st logDataPrefix initiator ∅ = ([], .returned none) := by
    show popLogRecs _ _ fuel [] _ = _
    rw [popLogRecs, BinaryHeap.pop_nil]
  rw [sendDataDeltas, h]
  simp only [filterAndSendDeltas, hmerged]
  rfl

/-- With the same generations known at the empty prefix, which is the deepest one that covers the
key, no record is sent. -/
theorem root_vector_overlooked :
    Missing nestedStore 3 nestedRequest 2 2 [97, 98] ∧
    (∃ respVecs respGen respgv, (serviceWith (knownAt [])).copyDbGenInfo [] =
      .ok (respVecs, respGen) ∧ AList.lookup [] respVecs = some respgv ∧ 2 ≤ respgv.get 2 ∧
        respVecs.keys = [[]]) ∧
    ∀ fuel, ∃ out, sendDataDeltas fuel (serviceWith (knownAt [])) nestedStore 3 nestedRequest
      = ([.gvs out], .returned none) :=
  ⟨nestedRequest_lacks, ⟨_, _, _, rfl, rfl, by decide, rfl⟩,
    fun _ ↦ ⟨_, sendDataDeltas_nothing rfl⟩⟩

end Vanadium.Vsync
