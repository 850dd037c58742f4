import Vanadium.Foundations.Table

/-!
# Ordered maps

A key-value store is a table over ordered keys: besides looking a key up, a reader can list the
entries whose keys satisfy a condition in the order of the keys. The listing is determined by the
lookups (`eq_scan_iff`), so that two representations of one map list the same entries.

A write puts a value at a key or deletes the key; a batch of writes is applied from left to right.
-/

namespace Vanadium.Foundations.Table

open List

variable {κ ν : Type} {ws : List (κ × Option ν)} {t' : Table κ ν} {k : κ} {q : κ → Prop} {v : ν}

/-! ## Writes -/

section Writes

variable [DecidableEq κ] (t : Table κ ν) (w : κ × Option ν)

/-- Put a value at a key, or delete the key. -/
def write (t : Table κ ν) (w : κ × Option ν) : Table κ ν :=
  match w.2 with
  | some v => AList.insert w.1 v t
  | none => AList.erase w.1 t

theorem lookup_write (k : κ) :
    (t.write w).lookup k = if k = w.1 then w.2 else t.lookup k := by
  obtain ⟨a, _ | v⟩ := w
  · exact lookup_erase_eq_ite t a k
  · exact lookup_insert_eq_ite t a k v

/-- Apply the writes one after the other. -/
def writeAll (t : Table κ ν) (ws : List (κ × Option ν)) : Table κ ν := ws.foldl write t

@[simp] theorem writeAll_nil : t.writeAll [] = t := rfl

@[simp] theorem writeAll_cons (ws : List (κ × Option ν)) :
    t.writeAll (w :: ws) = (t.write w).writeAll ws := rfl

theorem writeAll_append (ws ws' : List (κ × Option ν)) :
    t.writeAll (ws ++ ws') = (t.writeAll ws).writeAll ws' := foldl_append

theorem lookup_writeAll_of_notMem {t : Table κ ν} (h : ∀ w ∈ ws, w.1 ≠ k) :
    (t.writeAll ws).lookup k = t.lookup k := by
  induction ws generalizing t with
  | nil => rfl
  | cons w ws ih =>
    obtain ⟨hw, hrest⟩ := forall_mem_cons.mp h
    rw [writeAll_cons, ih hrest, lookup_write, if_neg hw.symm]

theorem lookup_writeAll_of_mem {v : Option ν} {t : Table κ ν}
    (hnodup : ws.Pairwise fun w w' ↦ w.1 ≠ w'.1) (hmem : (k, v) ∈ ws) :
    (t.writeAll ws).lookup k = v := by
  induction ws generalizing t with
  | nil => exact absurd hmem not_mem_nil
  | cons w ws ih =>
    obtain ⟨hw, hnodup⟩ := pairwise_cons.mp hnodup
    rw [writeAll_cons]
    rcases mem_cons.mp hmem with rfl | hmem
    · rw [lookup_writeAll_of_notMem fun u hu ↦ (hw u hu).symm, lookup_write, if_pos rfl]
    · exact ih hnodup hmem

end Writes

/-! ## Listing the entries in key order -/

section Scan

variable [LinearOrder κ]

/-- The entries whose keys satisfy `p`, in key order. -/
def scan (p : κ → Prop) [DecidablePred p] (t : Table κ ν) : List (κ × ν) :=
  ((t.entries.map fun e ↦ (e.1, e.2)).filter fun e ↦ p e.1).insertionSort fun a b ↦ a.1 ≤ b.1

variable {p : κ → Prop} [DecidablePred p] {t : Table κ ν} {m : κ}

@[simp] theorem mem_scan [DecidableEq κ] : (k, v) ∈ t.scan p ↔ p k ∧ t.lookup k = some v := by
  rw [scan, mem_insertionSort, mem_filter, decide_eq_true_eq, mem_map, and_comm]
  refine and_congr_right fun _ ↦ ?_
  rw [← mem_entries_iff]
  constructor
  · rintro ⟨⟨a, w⟩, hmem, heq⟩
    cases heq
    exact hmem
  · intro hmem
    exact ⟨⟨k, v⟩, hmem, rfl⟩

/-- The keys of a listing increase. -/
theorem pairwise_scan : (t.scan p).Pairwise fun a b ↦ a.1 < b.1 := by
  have htotal : Std.Total fun a b : κ × ν ↦ a.1 ≤ b.1 := ⟨fun a b ↦ le_total a.1 b.1⟩
  have htrans : IsTrans (κ × ν) fun a b ↦ a.1 ≤ b.1 := ⟨fun _ _ _ ↦ le_trans⟩
  have hle : (t.scan p).Pairwise fun a b ↦ a.1 ≤ b.1 := pairwise_insertionSort _ _
  -- the keys of a table are distinct, and sorting only permutes them
  have hne : (t.scan p).Pairwise fun a b ↦ a.1 ≠ b.1 := by
    have hnodup : (t.entries.map fun e ↦ (e.1, e.2)).Pairwise fun a b ↦ a.1 ≠ b.1 := by
      rw [pairwise_map]
      exact nodupKeys_iff_pairwise.mp t.nodupKeys
    refine (List.Perm.pairwise_iff ?_ (perm_insertionSort _ _)).mpr (hnodup.filter _)
    exact fun h ↦ h.symm
  exact (hle.and hne).imp fun h ↦ lt_of_le_of_ne h.1 h.2

theorem eq_of_mem_iff {l l' : List (κ × ν)} (hl : l.Pairwise fun a b ↦ a.1 < b.1)
    (hl' : l'.Pairwise fun a b ↦ a.1 < b.1) (h : ∀ k v, (k, v) ∈ l ↔ (k, v) ∈ l') : l = l' := by
  have hanti : Std.Antisymm fun a b : κ × ν ↦ a.1 < b.1 := ⟨fun _ _ h h' ↦ absurd h' h.not_gt⟩
  have hirrefl : Std.Irrefl fun a b : κ × ν ↦ a.1 < b.1 := ⟨fun _ h ↦ lt_irrefl _ h⟩
  exact hl.eq_of_mem_iff hl' fun e ↦ h e.1 e.2

/-- **A listing is determined by the lookups.** -/
theorem eq_scan_iff [DecidableEq κ] {l : List (κ × ν)} :
    l = t.scan p ↔ (l.Pairwise fun a b ↦ a.1 < b.1) ∧
      ∀ k v, (k, v) ∈ l ↔ p k ∧ t.lookup k = some v := by
  constructor
  · rintro rfl
    exact ⟨pairwise_scan, fun _ _ ↦ mem_scan⟩
  · rintro ⟨hl, h⟩
    exact eq_of_mem_iff hl pairwise_scan fun k v ↦ (h k v).trans mem_scan.symm

/-- The entry with the greatest key comes last. -/
theorem scan_eq_append [DecidableEq κ] (hp : p m)
    (hm : t.lookup m = some v) (hmax : ∀ k w, t.lookup k = some w → k ≤ m)
    (ht : ∀ k, k ≠ m → t'.lookup k = t.lookup k) (hm' : t'.lookup m = none) :
    t.scan p = t'.scan p ++ [(m, v)] := by
  -- the other table lacks the greatest key only
  have hother : ∀ k w, t'.lookup k = some w → k ≠ m ∧ t.lookup k = some w := by
    intro k w hk
    have hne : k ≠ m := by
      rintro rfl
      rw [hm'] at hk
      cases hk
    exact ⟨hne, by rw [← ht k hne, hk]⟩
  symm
  rw [eq_scan_iff, pairwise_append]
  refine ⟨⟨pairwise_scan, pairwise_singleton _ _, ?_⟩, ?_⟩
  · rintro ⟨k, w⟩ hk e he
    rw [mem_singleton.mp he]
    obtain ⟨hne, hkt⟩ := hother k w (mem_scan.mp hk).2
    exact lt_of_le_of_ne (hmax k w hkt) hne
  · intro k w
    rw [mem_append, mem_scan, mem_singleton, Prod.mk.injEq]
    constructor
    · rintro (⟨hk, hw⟩ | ⟨rfl, rfl⟩)
      · exact ⟨hk, (hother k w hw).2⟩
      · exact ⟨hp, hm⟩
    · rintro ⟨hk, hw⟩
      by_cases hne : k = m
      · subst hne
        rw [hm] at hw
        exact Or.inr ⟨rfl, (Option.some.inj hw).symm⟩
      · exact Or.inl ⟨hk, by rw [ht k hne, hw]⟩

theorem scan_congr [DecidableEq κ]
    (h : ∀ k, p k → t'.lookup k = t.lookup k) : t'.scan p = t.scan p := by
  rw [eq_scan_iff]
  refine ⟨pairwise_scan, fun k v ↦ mem_scan.trans (and_congr_right fun hk ↦ ?_)⟩
  rw [h k hk]

theorem scan_insert_last [DecidableEq κ] (hp : p m) (hmax : ∀ k ∈ t.keys, k ≤ m) (v : ν) :
    Table.scan p (t.insert m v) = Table.scan p (t.erase m) ++ [(m, v)] := by
  apply scan_eq_append hp (AList.lookup_insert t)
  · intro k w hk
    rw [lookup_insert_eq_ite] at hk
    split at hk
    · next heq => exact heq.le
    · exact hmax k (mem_keys_iff.mpr ⟨w, hk⟩)
  · intro k hk
    rw [AList.lookup_erase_ne hk, AList.lookup_insert_ne hk]
  · exact AList.lookup_erase m t

theorem scan_eq_nil_iff [DecidableEq κ] : t.scan p = [] ↔ ∀ k, p k → t.lookup k = none := by
  rw [eq_comm, eq_scan_iff]
  constructor
  · rintro ⟨-, h⟩ k hk
    cases hv : t.lookup k with
    | none => rfl
    | some v => exact absurd ((h k v).mpr ⟨hk, hv⟩) not_mem_nil
  · intro h
    refine ⟨List.Pairwise.nil, fun k v ↦ ⟨fun hm ↦ absurd hm not_mem_nil, ?_⟩⟩
    rintro ⟨hk, hv⟩
    rw [h k hk] at hv
    cases hv

/-- The first entry of a listing that satisfies `q` is the one with the least key. -/
theorem find?_scan_eq_some [DecidableEq κ] [DecidablePred q] (hp : p k) (hv : t.lookup k = some v)
    (hq : q k) (hmin : ∀ k' v', p k' → t.lookup k' = some v' → q k' → k ≤ k') :
    ((t.scan p).find? fun e ↦ q e.1) = some (k, v) := by
  have hmem : (k, v) ∈ t.scan p := mem_scan.mpr ⟨hp, hv⟩
  rcases hfind : (t.scan p).find? fun e ↦ q e.1 with _ | ⟨k', v'⟩
  · exact absurd (decide_eq_true hq) (find?_eq_none.mp hfind _ hmem)
  · obtain ⟨hq', before, rest, hsplit, hbefore⟩ := find?_eq_some_iff_append.mp hfind
    have hmem' : (k', v') ∈ t.scan p := by rw [hsplit]; simp
    obtain ⟨hp', hv'⟩ := mem_scan.mp hmem'
    -- the entry at `k` is not among those before the one that was found
    have hle : k' ≤ k := by
      have hsorted := pairwise_scan (p := p) (t := t)
      rw [hsplit] at hmem hsorted
      rcases mem_append.mp hmem with hb | hr
      · have hnot := hbefore _ hb
        rw [decide_eq_true hq] at hnot
        cases hnot
      · rcases mem_cons.mp hr with heq | hr
        · exact (congrArg Prod.fst heq).ge
        · exact ((pairwise_cons.mp (pairwise_append.mp hsorted).2.1).1 _ hr).le
    obtain rfl := le_antisymm (hmin k' v' hp' hv' (of_decide_eq_true hq')) hle
    rw [hv] at hv'
    rw [Option.some.inj hv']
    exact hfind

theorem find?_scan_eq_none [DecidableEq κ] [DecidablePred q]
    (h : ∀ k v, p k → t.lookup k = some v → ¬q k) :
    ((t.scan p).find? fun e ↦ q e.1) = none := by
  rw [find?_eq_none]
  rintro ⟨k, v⟩ hmem
  obtain ⟨hp, hv⟩ := mem_scan.mp hmem
  simpa using h k v hp hv

end Scan

end Vanadium.Foundations.Table
