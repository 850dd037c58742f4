import Mathlib

/-!
# Finite tables

Go maps and the key ranges of a store are association lists with distinct keys: `AList` with a
constant value type. A statement over every table is a statement over every order in which a loop
may range over its entries.
-/

namespace Vanadium.Foundations

open List AList

/-- A finite map from keys to values. -/
abbrev Table (κ ν : Type) : Type := AList (fun _ : κ ↦ ν)

namespace Table

variable {κ ν : Type} [DecidableEq κ] (ks : List κ)

theorem lookup_insert_eq_ite (t : Table κ ν) (a k : κ) (v : ν) :
    (t.insert a v).lookup k = if k = a then some v else t.lookup k := by
  by_cases h : k = a
  · subst h
    rw [if_pos rfl, lookup_insert]
  · rw [if_neg h, lookup_insert_ne h]

theorem lookup_erase_eq_ite (t : Table κ ν) (a k : κ) :
    (t.erase a).lookup k = if k = a then none else t.lookup k := by
  by_cases h : k = a
  · subst h
    rw [if_pos rfl, lookup_erase]
  · rw [if_neg h, lookup_erase_ne h]

/-- Several keys are erased. -/
theorem lookup_foldl_erase (t : Table κ ν) (k : κ) :
    (ks.foldl (fun t a ↦ t.erase a) t).lookup k = if k ∈ ks then none else t.lookup k := by
  induction ks generalizing t with
  | nil => simp
  | cons a ks ih =>
    rw [foldl_cons, ih, lookup_erase_eq_ite]
    by_cases ha : k = a <;> by_cases hks : k ∈ ks <;> simp [ha, hks]

/-- Several keys get one value. -/
theorem lookup_foldl_insert (t : Table κ ν) (v : ν) (k : κ) :
    (ks.foldl (fun t a ↦ t.insert a v) t).lookup k = if k ∈ ks then some v else t.lookup k := by
  induction ks generalizing t with
  | nil => simp
  | cons a ks ih =>
    rw [foldl_cons, ih, lookup_insert_eq_ite]
    by_cases ha : k = a <;> by_cases hks : k ∈ ks <;> simp [ha, hks]

variable {t : Table κ ν} {k : κ} {v : ν} {f : ν → ℕ}

theorem mem_entries_iff : (⟨k, v⟩ : Sigma fun _ : κ ↦ ν) ∈ t.entries ↔ t.lookup k = some v :=
  mem_lookup_iff.symm

theorem mem_keys_iff : k ∈ t.keys ↔ ∃ v, t.lookup k = some v := by
  rw [← AList.mem_keys, ← AList.lookup_isSome, Option.isSome_iff_exists]

theorem lookup_eq_none_iff : t.lookup k = none ↔ k ∉ t.keys := by
  rw [AList.lookup_eq_none, AList.mem_keys]

theorem mem_keys_foldl_erase {ks : List κ} :
    k ∈ keys (ks.foldl (fun t a ↦ t.erase a) t) ↔ k ∈ t.keys ∧ k ∉ ks := by
  rw [mem_keys_iff, lookup_foldl_erase, mem_keys_iff]
  split
  · next h => simp [h]
  · next h => simp [h]

/-- An entry can be brought to the front. -/
theorem perm_cons_erase (h : t.lookup k = some v) :
    t.entries.Perm (⟨k, v⟩ :: (t.erase k).entries) := by
  have key : ∀ l : List (Sigma fun _ : κ ↦ ν), l.dlookup k = some v →
      l.Perm (⟨k, v⟩ :: l.kerase k) := by
    intro l
    induction l with
    | nil => intro h; cases h
    | cons e l ih =>
      obtain ⟨a, w⟩ := e
      intro h
      by_cases hk : k = a
      · subst hk
        obtain rfl : w = v := by rwa [dlookup_cons_eq, Option.some.injEq] at h
        have herase : kerase k (⟨k, w⟩ :: l) = l := kerase_cons_eq rfl
        rw [herase]
      · rw [dlookup_cons_ne _ _ hk] at h
        rw [kerase_cons_ne hk]
        exact ((ih h).cons _).trans (List.Perm.swap _ _ _)
  exact key t.entries h

theorem entries_insert (t : Table κ ν) (k : κ) (v : ν) :
    (t.insert k v).entries = ⟨k, v⟩ :: (t.erase k).entries := rfl

/-- Apply a function to every value of a table. -/
def mapVals {μ : Type} (f : κ → ν → μ) (t : Table κ ν) : Table κ μ :=
  ⟨t.entries.map fun e ↦ ⟨e.1, f e.1 e.2⟩, by
    rw [List.NodupKeys, List.keys, List.map_map]
    exact t.nodupKeys⟩

theorem lookup_mapVals {μ : Type} (f : κ → ν → μ) (t : Table κ ν) (k : κ) :
    (t.mapVals f).lookup k = (t.lookup k).map (f k) := by
  have key : ∀ l : List (Sigma fun _ : κ ↦ ν),
      (l.map fun e ↦ (⟨e.1, f e.1 e.2⟩ : Sigma fun _ : κ ↦ μ)).dlookup k
        = (l.dlookup k).map (f k) := by
    intro l
    induction l with
    | nil => rfl
    | cons e l ih =>
      obtain ⟨a, v⟩ := e
      rw [map_cons]
      by_cases h : k = a
      · subst h
        rw [dlookup_cons_eq, dlookup_cons_eq, Option.map_some]
      · rw [dlookup_cons_ne _ _ h, dlookup_cons_ne _ _ h, ih]
  exact key t.entries

/-- A key has at most one entry. -/
theorem filterMap_entries (t : Table κ ν) (k : κ) :
    (t.entries.filterMap fun e ↦ if e.1 = k then some e.2 else none) = (t.lookup k).toList := by
  have hnone (l : List (Sigma fun _ : κ ↦ ν)) (h : k ∉ l.keys) :
      (l.filterMap fun e ↦ if e.1 = k then some e.2 else none) = [] := by
    refine filterMap_eq_nil_iff.mpr fun e he ↦ if_neg fun heq ↦ h ?_
    rw [← heq]
    exact mem_keys_of_mem he
  have key : ∀ l : List (Sigma fun _ : κ ↦ ν), l.NodupKeys →
      (l.filterMap fun e ↦ if e.1 = k then some e.2 else none) = (l.dlookup k).toList := by
    intro l
    induction l with
    | nil => exact fun _ ↦ rfl
    | cons e l ih =>
      obtain ⟨a, v⟩ := e
      intro hnodup
      rw [nodupKeys_cons] at hnodup
      by_cases h : k = a
      · subst h
        rw [filterMap_cons, if_pos rfl, hnone l hnodup.1, dlookup_cons_eq]
        rfl
      · rw [filterMap_cons, if_neg (Ne.symm h), dlookup_cons_ne _ _ h]
        exact ih hnodup.2
  exact key t.entries t.nodupKeys

/-! ## Sums over a table -/

/-- The sum of a function of the values. -/
def total (f : ν → ℕ) (t : Table κ ν) : ℕ := (t.entries.map fun e ↦ f e.2).sum

theorem total_erase (h : t.lookup k = some v) : total f t = f v + total f (t.erase k) := by
  rw [total, ((perm_cons_erase h).map _).sum_eq, map_cons, sum_cons]
  rfl

theorem total_insert (v : ν) (h : t.lookup k = none) :
    total f (t.insert k v) = f v + total f t := by
  have herase : t.erase k = t := by
    apply ext
    exact kerase_of_notMem_keys (lookup_eq_none_iff.mp h)
  rw [total, entries_insert, map_cons, sum_cons, herase]
  rfl

theorem total_update {u : ν} (v : ν) (h : t.lookup k = some u) :
    total f (t.insert k v) + f u = f v + total f t := by
  rw [total_erase h, total, entries_insert, map_cons, sum_cons]
  change f v + total f (t.erase k) + f u = _
  omega

theorem exists_of_total_ne_zero (h : total f t ≠ 0) : ∃ k v, t.lookup k = some v ∧ f v ≠ 0 := by
  by_contra hnone
  push Not at hnone
  refine h (sum_eq_zero fun n hn ↦ ?_)
  obtain ⟨⟨k, v⟩, he, rfl⟩ := mem_map.mp hn
  exact hnone k v (mem_entries_iff.mp he)

theorem apply_le_total (h : t.lookup k = some v) : f v ≤ total f t := by
  rw [total_erase h]
  exact Nat.le_add_right _ _

end Table

end Vanadium.Foundations
