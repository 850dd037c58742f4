import Vanadium.Foundations.Table

/-!
# Paths in a Memstore

What is below a path is decided in three places. `removeChildren` and `Exists` take every key that
has the path as a string prefix, `Children` only the path itself and what follows a slash.
-/

namespace Vanadium.Fs

open Foundations Foundations.Table
open List hiding lookup_eq_none_iff

abbrev Str : Type := List Char

inductive Err where
  | withoutTransaction (call : String)
  | notInMemStore (path : Str)
  | childrenWithoutLock
  | noExist (path : Str)
  | nilMap
  deriving DecidableEq

/-- The maps `puts` and `removes`. -/
structure Tx (α : Type) where
  puts : Table Str α
  removes : List Str

/-- Both maps of the transaction are nil unless one is open. -/
structure Memstore (α : Type) where
  haveTransactionNameBinding : Bool
  locked : Bool
  data : Table Str α
  tx : Option (Tx α)

namespace Memstore

variable {α : Type} (ms : Memstore α) (path : Str)

/-- Whether something was deleted, and the maps afterwards. -/
def removeChildren (tx : Tx α) : Bool × Tx α :=
  let based := ms.data.keys.filter path.isPrefixOf
  let put := tx.puts.keys.filter path.isPrefixOf
  (based ≠ [] ∨ put ≠ [], ⟨put.foldl (fun t k ↦ t.erase k) tx.puts, based ++ tx.removes⟩)

/-- `Remove`. A write to a nil map panics. -/
def remove : Except Err (Memstore α) :=
  if ms.locked = false then .error (.withoutTransaction "Remove()")
  else
    match ms.tx with
    | none => .error (if ms.data.keys.any path.isPrefixOf then .nilMap else .notInMemStore path)
    | some tx =>
      if tx.removes.contains path then .error (.notInMemStore path)
      else
        let found := (ms.data.lookup path).isSome
        let r := if found then (true, tx) else ms.removeChildren path tx
        if r.1 then .ok { ms with tx := some ⟨r.2.puts.erase path, path :: r.2.removes⟩ }
        else .error (.notInMemStore path)

/-- The maps as they are read: a nil map is empty. -/
def pending : Tx α := ms.tx.getD ⟨∅, []⟩

def transactionExists : Bool :=
  (ms.pending.puts.lookup path).isSome ||
    ((ms.data.lookup path).isSome && !ms.pending.removes.contains path) ||
    ms.pending.puts.keys.any path.isPrefixOf ||
    ms.data.keys.any fun k ↦ path.isPrefixOf k && !ms.pending.removes.contains k

def «exists» : Bool :=
  if ms.haveTransactionNameBinding then ms.transactionExists path
  else (ms.data.lookup path).isSome || ms.data.keys.any path.isPrefixOf

/-- What `Children` finds at a key: the object itself, a child, or nothing. -/
def child (k : Str) : Option (Option Str) :=
  if path.isPrefixOf k then
    match k.drop path.length with
    | [] => some none
    | c :: name => if c ≠ '/' ∧ path ≠ [] then none
      else some (some (((c :: name).dropWhile (· = '/')).takeWhile (· ≠ '/')))
  else none

def children : Except Err (List Str) :=
  if ms.locked = false then .error .childrenWithoutLock
  else
    let found := ms.data.keys.filterMap (child path)
    if found = [] then .error (.noExist path)
    else .ok (found.reduceOption.dedup.mergeSort fun a b ↦ decide (a ≤ b))

/-- What the transaction sees at a key. -/
def view (k : Str) : Option α :=
  (ms.pending.puts.lookup k).or (if ms.pending.removes.contains k then none else ms.data.lookup k)

/-- A key that starts with the path and a slash. -/
def Below (k : Str) : Prop := (path ++ ['/']) <+: k

variable {ms path} {ms' : Memstore α} {k : Str}

theorem view_of_tx {puts : Table Str α} {removes : List Str} (h : ms.tx = some ⟨puts, removes⟩) :
    ms.view k = (puts.lookup k).or (if k ∈ removes then none else ms.data.lookup k) := by
  rw [view, pending, h]
  simp

theorem view_erase {puts : Table Str α} {removes : List Str} :
    view { ms with tx := some ⟨puts.erase path, path :: removes⟩ } k =
      if k = path then none else view { ms with tx := some ⟨puts, removes⟩ } k := by
  rw [view_of_tx rfl, view_of_tx rfl, lookup_erase_eq_ite]
  by_cases hk : k = path
  · rw [if_pos hk, if_pos hk, if_pos (hk ▸ mem_cons_self), Option.or_none]
  · rw [if_neg hk, if_neg hk]
    simp only [mem_cons, hk, false_or]

/-- Every key with the prefix is gone: those of `puts` are erased, and those of the base map are
among the removed ones. -/
theorem view_removeChildren (tx : Tx α) :
    view { ms with tx := some (ms.removeChildren path tx).2 } k =
      if path <+: k then none else view { ms with tx := some tx } k := by
  have hputs :
      ((tx.puts.keys.filter path.isPrefixOf).foldl (fun t a ↦ t.erase a) tx.puts).lookup k =
      if path <+: k then none else tx.puts.lookup k := by
    by_cases hk : k ∈ tx.puts.keys
    · simp [lookup_foldl_erase, hk]
    · simp [lookup_eq_none_iff.mpr hk, lookup_foldl_erase]
  rw [removeChildren, view_of_tx rfl, view_of_tx rfl, hputs]
  by_cases hpath : path <+: k
  · rw [if_pos hpath, if_pos hpath, Option.none_or]
    by_cases hk : k ∈ ms.data.keys
    · exact if_pos (mem_append_left _ (mem_filter.mpr ⟨hk, isPrefixOf_iff_prefix.mpr hpath⟩))
    · rw [lookup_eq_none_iff.mpr hk, ite_self]
  · have hbased : k ∉ ms.data.keys.filter path.isPrefixOf := fun hmem ↦
      hpath ( isPrefixOf_iff_prefix.mp (mem_filter.mp hmem).2)
    rw [if_neg hpath, if_neg hpath]
    simp only [mem_append, hbased, false_or]

/-- `Remove` takes out the path, and all that starts with it if it is not in the base map. -/
theorem remove_spec (h : ms.remove path = .ok ms') :
    (ms.view path = none → ms.data.lookup path = none) ∧ ∀ k, ms'.view k =
      if k = path ∨ ms.data.lookup path = none ∧ path <+: k then none else ms.view k := by
  rw [remove] at h
  split at h
  · cases h
  rcases htx : ms.tx with _ | tx
  · rw [htx] at h
    cases h
  have hms : ms = { ms with tx := some tx } := by rw [← htx]
  rw [htx] at h
  dsimp only at h
  split at h
  · cases h
  next hpending =>
  refine ⟨fun hnone ↦ ?_, fun k ↦ ?_⟩
  · rw [view_of_tx htx, if_neg (by simpa using hpending), Option.or_eq_none_iff] at hnone
    exact hnone.2
  · by_cases hfound : (ms.data.lookup path).isSome = true
    · rw [if_pos hfound] at h
      cases h
      rw [view_erase, ← hms]
      have hsome : ms.data.lookup path ≠ none := Option.isSome_iff_ne_none.mp hfound
      simp only [hsome, false_and, or_false]
    · rw [if_neg hfound] at h
      split at h
      · cases h
        rw [view_erase, view_removeChildren, ← hms]
        simp only [Option.not_isSome_iff_eq_none.mp hfound, true_and]
        by_cases hk : k = path
        · rw [if_pos hk, if_pos (.inl hk)]
        · rw [if_neg hk]
          exact if_congr (or_iff_right hk).symm rfl rfl
      · cases h

theorem Below.isPrefix (h : Below path k) : path <+: k := (prefix_append path ['/']).trans h

/-- What `Children` counts for a path. -/
theorem child_ne_none_iff :
    child path k ≠ none ↔ path <+: k ∧ (path = [] ∨ k = path ∨ Below path k) := by
  by_cases hk : path <+: k
  · obtain ⟨rest, rfl⟩ := hk
    rcases rest with _ | ⟨c, rest⟩
    · simp [child]
    · have hbelow : Below path (path ++ c :: rest) ↔ c = '/' := by
        rw [Below, prefix_append_right_inj, cons_prefix_cons, eq_comm]
        exact and_iff_left nil_prefix
      by_cases hc : c = '/' <;> by_cases hpath : path = [] <;> simp_all [child]
  · simp [child, hk]

/-- **Removal and listing by whole elements.** -/
theorem remove_exists_iff {α : Type} (ms : Memstore α) (path : Str) :
    (∀ ms', ms.remove path = .ok ms' →
      ((∀ k, k ≠ path → ¬Below path k → ms'.view k = ms.view k) ↔
        (ms.data.lookup path).isSome ∨
          ∀ k, (ms.view k).isSome → path <+: k → k = path ∨ Below path k) ∧
      (ms.view path = none → ∀ k, Below path k → ms'.view k = none)) ∧
    (ms.haveTransactionNameBinding = false →
      ((ms.exists path = true ↔ ms.children path ≠ .error (.noExist path)) ↔
        if ms.locked then (∃ k ∈ ms.data.keys, path <+: k) →
          ∃ k ∈ ms.data.keys, path <+: k ∧ (path = [] ∨ k = path ∨ Below path k)
        else ∃ k ∈ ms.data.keys, path <+: k)) := by
  refine ⟨fun ms' h ↦ ?_, fun hbare ↦ ?_⟩
  · obtain ⟨hpending, hview⟩ := remove_spec h
    simp only [hview, ite_eq_right_iff]
    refine ⟨?_, fun hnone k hk ↦ if_pos (.inr ⟨hpending hnone, hk.isPrefix⟩)⟩
    rcases hfound : ms.data.lookup path with _ | v <;> grind [Option.isSome_iff_ne_none]
  · have hexists : ms.exists path = true ↔ ∃ k ∈ ms.data.keys, path <+: k := by
      simpa [Memstore.exists, hbare] using fun h ↦ ⟨path, AList.lookup_isSome.mp h, prefix_rfl⟩
    have hchildren : ms.children path ≠ .error (.noExist path) ↔ (ms.locked = true →
        ∃ k ∈ ms.data.keys, path <+: k ∧ (path = [] ∨ k = path ∨ Below path k)) := by
      simp only [← child_ne_none_iff]
      rw [children]
      split <;> simp_all
    rw [hexists, hchildren]
    rcases ms.locked with _ | _
    · simp
    · simp only [if_true, true_imp_iff]
      exact ⟨Iff.mp, fun h ↦ ⟨h, fun ⟨k, hk, hpath, _⟩ ↦ ⟨k, hk, hpath⟩⟩⟩

/-- An object at `a/bc` only. -/
def sibling : Memstore Unit := ⟨false, true,
      (∅ : Table Str Unit).insert "a/bc".toList (), some ⟨∅, []⟩⟩

/-- `Remove` of `a/b` takes the object at `a/bc`; `a/b` exists and has no children. -/
theorem remove_takes_sibling :
    (∃ ms', sibling.remove "a/b".toList = .ok ms' ∧
      ms'.view "a/bc".toList ≠ sibling.view "a/bc".toList) ∧ sibling.exists "a/b".toList = true ∧
      sibling.children "a/b".toList = .error (.noExist "a/b".toList) :=
  ⟨⟨_, rfl, by decide⟩, by decide, by decide⟩

end Memstore

end Vanadium.Fs
