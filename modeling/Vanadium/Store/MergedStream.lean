import Vanadium.Store.PtrieStream

/-!
# Scanning under uncommitted writes

A transaction scans its snapshot and its own writes at the same time. The writes are a trie from
keys to values or deletions. The merged stream keeps both streams one pair ahead; it stages the pair
with the smaller key, a write hides the pair of the snapshot at the same key, and deletions are
skipped.

The trie holds what was written as long as the keys are shorter than `2 ^ 29` bytes
(`Writes.Holds`). The stream then yields what a scan of the snapshot with the writes applied to it
yields (`collect_merge`).
-/

namespace Vanadium.Transactions

open Foundations Table Vanadium.Store List Option

/-- The contents of a store or of a snapshot. -/
abbrev Contents : Type := Table Bytes Bytes

/-- A write: a value is put at the key, or `none` and the key is deleted. -/
abbrev Write : Type := Bytes × Option Bytes

/-- The writes of a transaction; the value `none` stands for `isDeleted`. -/
abbrev Writes : Type := Ptrie.PNode (Option Bytes)

namespace Writes

/-- `Put` of a value or of `isDeleted`. Here and below a panic gives `none`. -/
def write (w : Writes) (op : Write) : Option Writes := (Ptrie.PNode.put w op.1 (some op.2)).toOption

def writeAll (w : Writes) (ops : List Write) : Option Writes := ops.foldlM write w

/-- The pairs of `Scan`. A value that is nil is of an unexpected type. -/
def pairs (w : Writes) (start limit : Bytes) : Option (List Write) := do
  let l ← (Ptrie.scan w start limit >>= Ptrie.Stream.deliver (Ptrie.weight w)).toOption
  l.mapM fun e ↦ e.2.map fun v ↦ (e.1, v)

/-! ## What the writes hold -/

/-- The last write to each key. -/
def last (ops : List Write) : Table Bytes (Option Bytes) :=
  Table.writeAll ∅ (ops.map fun op ↦ (op.1, some op.2))

/-- The trie holds the last write to each key. -/
def Holds (w : Writes) (ops : List Write) : Prop := w.Represents (last ops)

variable {w : Writes} {ops : List Write} {key start : Bytes}

theorem last_concat (ops : List Write) (op : Write) :
    last (ops ++ [op]) = (last ops).write (op.1, some op.2) := by
  rw [last, map_append, writeAll_append]
  rfl

/-- What is in the contents after the writes. -/
theorem lookup_writeAll (c : Contents) (ops : List Write) (key : Bytes) :
    (c.writeAll ops).lookup key = ((last ops).lookup key).getD (c.lookup key) := by
  induction ops using reverseRecOn with
  | nil => rfl
  | append_singleton ops op ih =>
    rw [writeAll_append, writeAll_cons, writeAll_nil, lookup_write, last_concat, lookup_write, ih]
    split <;> rfl

/-- The last writes, in key order, do what all the writes do. -/
theorem lookup_writeAll_scan (c : Contents) (ops : List Write) (key : Bytes) :
    (c.writeAll ((last ops).scan (InRange [] []))).lookup key = (c.writeAll ops).lookup key := by
  rw [lookup_writeAll c ops]
  rcases hlast : (last ops).lookup key with _ | v
  · refine lookup_writeAll_of_notMem fun op hop heq ↦ ?_
    rw [mem_scan, heq, hlast] at hop
    cases hop.2
  · refine lookup_writeAll_of_mem (pairwise_scan.imp fun h ↦ h.ne) ?_
    exact mem_scan.mpr ⟨⟨nil_le key, .inl rfl⟩, hlast⟩

theorem holds_nil : Holds .nil [] := Ptrie.PNode.represents_nil

theorem Holds.write (h : w.Holds ops) (op : Write) (hkey : op.1.length < 2 ^ 29) :
    ∃ w', w.write op = some w' ∧ w'.Holds (ops ++ [op]) := by
  obtain ⟨w', hput, hw'⟩ := Ptrie.PNode.Represents.put h hkey op.2
  refine ⟨w', by rw [Writes.write, hput]; rfl, ?_⟩
  rw [Holds, last_concat]
  exact hw'

theorem exists_writeAll (hkeys : ∀ op ∈ ops, op.1.length < 2 ^ 29) :
    ∃ w : Writes, writeAll .nil ops = some w ∧ w.Holds ops := by
  induction ops using reverseRecOn with
  | nil => exact ⟨.nil, rfl, holds_nil⟩
  | append_singleton ops op ih =>
    obtain ⟨w, hw, h⟩ := ih fun op' hop ↦ hkeys op' (mem_append_left _ hop)
    obtain ⟨w', hw', h'⟩ := h.write op (hkeys op (mem_append_right _ (mem_singleton.mpr rfl)))
    refine ⟨w', ?_, h'⟩
    rw [writeAll, foldlM_append, ← writeAll, hw]
    simp [hw']

theorem Holds.get_eq (h : w.Holds ops) (hkey : key.length < 2 ^ 29) :
    Ptrie.PNode.get w key = (last ops).lookup key :=
  Ptrie.PNode.Represents.get_eq h hkey

theorem Holds.pairs_eq (h : w.Holds ops) (hstart : start.length < 2 ^ 29) (limit : Bytes) :
    w.pairs start limit = some ((last ops).scan (InRange start limit)) := by
  have hmapM : ∀ l : List Write,
      (l.map fun e ↦ (e.1, some e.2)).mapM (fun e ↦ e.2.map fun v ↦ (e.1, v)) = some l := by
    intro l
    induction l with
    | nil => rfl
    | cons e l ih => simp [ih]
  rw [pairs, Ptrie.deliver_scan h hstart, take_of_length_le (Ptrie.length_scan_le h start limit)]
  exact hmapM _

end Writes

/-! ## The stream -/

inductive ValueSource where
  | notInitialized
  | snapshotStream
  | ptrieStream
  deriving DecidableEq

/-- `mergedStream`. Each list begins with the pair that the stream points at; a stream has a key
exactly if its list is not empty. -/
structure MergedStream where
  s : List (Bytes × Bytes)
  p : List Write
  valueSource : ValueSource
  deriving DecidableEq

def mergeWritesWithStream (sn : Contents) (w : Writes) (start limit : Bytes) :
    Option MergedStream :=
  (w.pairs start limit).map fun p ↦ ⟨sn.scan (InRange start limit), p, .notInitialized⟩

namespace MergedStream

/-- The loop of `Advance` around `stage`, for a stream that was not cancelled. It ends when a pair
is staged or both streams have ended. -/
def stageLoop : List (Bytes × Bytes) → List Write → MergedStream
  | [], [] => ⟨[], [], .notInitialized⟩
  | e :: s, [] => ⟨e :: s, [], .snapshotStream⟩
  | [], (_, none) :: p => stageLoop [] p
  | [], (pKey, some v) :: p => ⟨[], (pKey, some v) :: p, .ptrieStream⟩
  | (sKey, sValue) :: s, (pKey, pValue) :: p =>
    if sKey < pKey then ⟨(sKey, sValue) :: s, (pKey, pValue) :: p, .snapshotStream⟩
    else
      let s' := if sKey = pKey then s else (sKey, sValue) :: s
      match pValue with
      | none => stageLoop s' p
      | some v => ⟨s', (pKey, some v) :: p, .ptrieStream⟩

/-- The two streams after the staged pair has been left behind. -/
def moved (m : MergedStream) : List (Bytes × Bytes) × List Write :=
  match m.valueSource with
  | .snapshotStream => (m.s.tail, m.p)
  | .ptrieStream => (m.s, m.p.tail)
  | .notInitialized => (m.s, m.p)

def advance (m : MergedStream) : MergedStream := stageLoop m.moved.1 m.moved.2

/-- `Key` and `Value`; nothing is staged if `Advance` returned false. -/
def staged (m : MergedStream) : Option (Bytes × Bytes) :=
  match m.valueSource, m.s, m.p with
  | .snapshotStream, e :: _, _ => some e
  | .ptrieStream, _, (k, some v) :: _ => some (k, v)
  | _, _, _ => none

/-- The pairs that the next calls of `Advance` stage, at most as many as given. -/
def collect : ℕ → MergedStream → List (Bytes × Bytes)
  | 0, _ => []
  | n + 1, m =>
    match m.advance.staged with
    | none => []
    | some e => e :: collect n m.advance

/-- All pairs of the stream. -/
def drain (m : MergedStream) : List (Bytes × Bytes) := m.collect (m.s.length + m.p.length)

end MergedStream

/-! ## What the stream yields -/

/-- The pair is written, or it is in the snapshot and its key is not written. -/
def Shows (s : List (Bytes × Bytes)) (p : List Write) (k v : Bytes) : Prop :=
  (k, some v) ∈ p ∨ (k, v) ∈ s ∧ ∀ v', (k, v') ∉ p

/-- Increasing keys. -/
def Increasing {ν : Type} (l : List (Bytes × ν)) : Prop := l.Pairwise fun a b ↦ a.1 < b.1

/-- What is known of a stream whose two parts are `s` and `p` after it has staged a pair: the pair
comes first, and the parts that are left show the others. -/
structure Staged (s : List (Bytes × Bytes)) (p : List Write) (m : MergedStream)
    (e : Bytes × Bytes) : Prop where
  staged : m.staged = some e
  left : Increasing m.moved.1
  right : Increasing m.moved.2
  length : m.moved.1.length + m.moved.2.length < s.length + p.length
  shows : ∀ k v, Shows s p k v ↔ (k, v) = e ∨ Shows m.moved.1 m.moved.2 k v
  first : ∀ {k v}, Shows m.moved.1 m.moved.2 k v → e.1 < k

variable {s s' : List (Bytes × Bytes)} {p : List Write} {pKey : Bytes}
  {m : MergedStream} {n : ℕ}

theorem shows_cons_iff {pValue : Option Bytes} (hs : s = s' ∨ ∃ v, s = (pKey, v) :: s')
    (hs' : ∀ e ∈ s', pKey < e.1) (k v : Bytes) :
    Shows s ((pKey, pValue) :: p) k v ↔ k = pKey ∧ pValue = some v ∨ Shows s' p k v := by
  constructor
  · rintro (hmem | ⟨hmem, hnot⟩)
    · rcases mem_cons.mp hmem with heq | hmem
      · cases heq
        exact .inl ⟨rfl, rfl⟩
      · exact .inr (.inl hmem)
    · have hk : k ≠ pKey := by
        rintro rfl
        exact hnot pValue mem_cons_self
      refine .inr (.inr ⟨?_, fun v' hv' ↦ hnot v' (mem_cons_of_mem _ hv')⟩)
      rcases hs with rfl | ⟨v₀, rfl⟩
      · exact hmem
      · exact (mem_cons.mp hmem).resolve_left fun heq ↦ hk (congrArg Prod.fst heq)
  · rintro (⟨rfl, rfl⟩ | hmem | ⟨hmem, hnot⟩)
    · exact .inl mem_cons_self
    · exact .inl (mem_cons_of_mem _ hmem)
    · refine .inr ⟨?_, fun v' hv' ↦ ?_⟩
      · rcases hs with rfl | ⟨v₀, rfl⟩
        · exact hmem
        · exact mem_cons_of_mem _ hmem
      · rcases mem_cons.mp hv' with heq | hv'
        · exact absurd (congrArg Prod.fst heq) (hs' _ hmem).ne'
        · exact hnot v' hv'

theorem lt_of_shows {a k v : Bytes}
    (hs : ∀ e ∈ s, a < e.1) (hp : ∀ e ∈ p, a < e.1) (h : Shows s p k v) : a < k := by
  rcases h with hmem | ⟨hmem, -⟩
  · exact hp _ hmem
  · exact hs _ hmem

theorem Staged.of_ptrie {v : Bytes} (hs : s = s' ∨ ∃ v, s = (pKey, v) :: s')
    (hs' : ∀ e ∈ s', pKey < e.1) (hinc : Increasing s') (hp : Increasing ((pKey, some v) :: p)) :
    Staged s ((pKey, some v) :: p) ⟨s', (pKey, some v) :: p, .ptrieStream⟩ (pKey, v) := by
  obtain ⟨hhead, hp⟩ := pairwise_cons.mp hp
  refine ⟨?_, hinc, hp, ?_, fun k v' ↦ ?_, fun h ↦ lt_of_shows hs' hhead h⟩
  · rcases s' with _ | _ <;> rfl
  · have hle : s'.length ≤ s.length := by
      rcases hs with rfl | ⟨v₀, rfl⟩
      · exact le_rfl
      · exact Nat.le_succ _
    change s'.length + p.length < s.length + (p.length + 1)
    omega
  · rw [shows_cons_iff hs hs', Prod.mk.injEq, some.injEq]
    exact or_congr_left (and_congr_right fun _ ↦ eq_comm)

theorem Staged.of_snapshot {sKey sValue : Bytes} (hs : Increasing ((sKey, sValue) :: s))
    (hp : Increasing p) (hlt : ∀ e ∈ p, sKey < e.1) :
    Staged ((sKey, sValue) :: s) p ⟨(sKey, sValue) :: s, p, .snapshotStream⟩ (sKey, sValue) := by
  obtain ⟨hhead, hs⟩ := pairwise_cons.mp hs
  refine ⟨rfl, hs, hp, ?_, fun k v ↦ ?_, fun h ↦ lt_of_shows hhead hlt h⟩
  · change s.length + p.length < s.length + 1 + p.length
    omega
  · constructor
    · rintro (hmem | ⟨hmem, hnot⟩)
      · exact .inr (.inl hmem)
      · rcases mem_cons.mp hmem with heq | hmem
        · exact .inl heq
        · exact .inr (.inr ⟨hmem, hnot⟩)
    · rintro (heq | hmem | ⟨hmem, hnot⟩)
      · obtain ⟨rfl, rfl⟩ := Prod.mk.inj heq
        exact .inr ⟨mem_cons_self, fun v' hv' ↦ lt_irrefl _ (hlt _ hv')⟩
      · exact .inl hmem
      · exact .inr ⟨mem_cons_of_mem _ hmem, hnot⟩

theorem shows_of_deleted (hs : s = s' ∨ ∃ v, s = (pKey, v) :: s') (hs' : ∀ e ∈ s', pKey < e.1)
    (k v : Bytes) : Shows s ((pKey, none) :: p) k v ↔ Shows s' p k v := by
  rw [shows_cons_iff hs hs']
  simp

theorem skip_deleted
    (hs : s = s' ∨ ∃ v, s = (pKey, v) :: s') (hs' : ∀ e ∈ s', pKey < e.1)
    (h : (m.staged = none ∧ ∀ k v, ¬Shows s' p k v) ∨ ∃ e, Staged s' p m e) :
    (m.staged = none ∧ ∀ k v, ¬Shows s ((pKey, none) :: p) k v) ∨
      ∃ e, Staged s ((pKey, none) :: p) m e := by
  have hshows := shows_of_deleted (p := p) hs hs'
  rcases h with ⟨hnone, hshow⟩ | ⟨e, he⟩
  · refine .inl ⟨hnone, fun k v ↦ ?_⟩
    rw [hshows]
    exact hshow k v
  · refine .inr ⟨e, he.staged, he.left, he.right, ?_, fun k v ↦ ?_, he.first⟩
    · have hle : s'.length ≤ s.length := by
        rcases hs with rfl | ⟨v₀, rfl⟩
        · exact le_rfl
        · exact Nat.le_succ _
      have hlt := he.length
      rw [length_cons]
      omega
    · rw [hshows]
      exact he.shows k v

theorem hidden_spec {sKey sValue : Bytes} (hs : Increasing ((sKey, sValue) :: s))
    (hle : ¬sKey < pKey) (hs' : s' = if sKey = pKey then s else (sKey, sValue) :: s) :
    ((sKey, sValue) :: s = s' ∨ ∃ v, (sKey, sValue) :: s = (pKey, v) :: s') ∧
      (∀ e ∈ s', pKey < e.1) ∧ Increasing s' := by
  obtain ⟨hhead, htail⟩ := pairwise_cons.mp hs
  by_cases heq : sKey = pKey
  · rw [if_pos heq] at hs'
    subst hs' heq
    exact ⟨Or.inr ⟨sValue, rfl⟩, hhead, htail⟩
  · rw [if_neg heq] at hs'
    subst hs'
    have hlt : pKey < sKey := lt_of_le_of_ne (not_lt.mp hle) fun h ↦ heq h.symm
    exact ⟨Or.inl rfl, forall_mem_cons.mpr ⟨hlt, fun e he ↦ hlt.trans (hhead e he)⟩, hs⟩

open MergedStream

/-- **One `Advance`.** Either a pair is staged, or the two streams have nothing to show. -/
theorem stageLoop_spec (s : List (Bytes × Bytes)) (p : List Write)
    (hs : Increasing s) (hp : Increasing p) :
    ((stageLoop s p).staged = none ∧ ∀ k v, ¬Shows s p k v) ∨
      ∃ e, Staged s p (stageLoop s p) e := by
  induction s, p using stageLoop.induct with
  | case1 =>
    refine .inl ⟨rfl, ?_⟩
    rintro k v (hmem | ⟨hmem, -⟩)
    · exact absurd hmem not_mem_nil
    · exact absurd hmem not_mem_nil
  | case2 e s => exact .inr ⟨e, Staged.of_snapshot hs hp (forall_mem_nil _)⟩
  | case3 pKey p ih =>
    exact skip_deleted (.inl rfl) (forall_mem_nil _) (ih hs (pairwise_cons.mp hp).2)
  | case4 pKey v p => exact .inr ⟨_, Staged.of_ptrie (.inl rfl) (forall_mem_nil _) hs hp⟩
  | case5 sKey sValue s pKey pValue p hlt =>
    rw [stageLoop, if_pos hlt]
    have hlater : ∀ e ∈ p, sKey < e.1 := fun e he ↦ hlt.trans ((pairwise_cons.mp hp).1 e he)
    exact .inr ⟨_, Staged.of_snapshot hs hp (forall_mem_cons.mpr ⟨hlt, hlater⟩)⟩
  | case6 sKey sValue s pKey p hlt s' ih =>
    obtain ⟨hsplit, hlater, hinc⟩ := hidden_spec hs hlt rfl
    rw [stageLoop, if_neg hlt]
    exact skip_deleted hsplit hlater (ih hinc (pairwise_cons.mp hp).2)
  | case7 sKey sValue s pKey p hlt v =>
    obtain ⟨hsplit, hlater, hinc⟩ := hidden_spec hs hlt rfl
    rw [stageLoop, if_neg hlt]
    exact .inr ⟨_, Staged.of_ptrie hsplit hlater hinc hp⟩

/-- **All calls of `Advance`** stage what the two streams show, in key order. -/
theorem collect_spec (hs : Increasing m.moved.1)
    (hp : Increasing m.moved.2) (hlen : m.moved.1.length + m.moved.2.length ≤ n) :
    Increasing (m.collect n) ∧ ∀ k v, (k, v) ∈ m.collect n ↔ Shows m.moved.1 m.moved.2 k v := by
  induction n generalizing m with
  | zero =>
    have hs : m.moved.1 = [] := eq_nil_of_length_eq_zero (by omega)
    have hp : m.moved.2 = [] := eq_nil_of_length_eq_zero (by omega)
    refine ⟨List.Pairwise.nil, fun k v ↦ ?_⟩
    rw [hs, hp]
    simp [collect, Shows]
  | succ n ih =>
    rw [collect]
    rcases stageLoop_spec m.moved.1 m.moved.2 hs hp with ⟨hnone, hshow⟩ | ⟨e, he⟩
    · rw [advance, hnone]
      exact ⟨List.Pairwise.nil, fun k v ↦ iff_of_false not_mem_nil (hshow k v)⟩
    · have hlt := he.length
      obtain ⟨hinc, hmem⟩ := ih he.left he.right (by omega)
      rw [advance, he.staged]
      refine ⟨pairwise_cons.mpr ⟨fun ⟨k, v⟩ hkv ↦ ?_, hinc⟩, fun k v ↦ ?_⟩
      · exact he.first ((hmem k v).mp hkv)
      · rw [mem_cons, hmem, he.shows]

/-- **The merged stream yields the scan of the snapshot with the writes applied**, however often
`Advance` is called. -/
theorem collect_merge {w : Writes} {ops : List Write} (h : w.Holds ops) (sn : Contents)
    {start : Bytes} (hstart : start.length < 2 ^ 29) (limit : Bytes) :
    ∃ m, mergeWritesWithStream sn w start limit = some m ∧
      ∀ n, m.collect (m.s.length + m.p.length + n) =
        (sn.writeAll ops).scan (InRange start limit) := by
  refine ⟨_, by rw [mergeWritesWithStream, h.pairs_eq hstart limit]; rfl, fun n ↦ ?_⟩
  obtain ⟨hinc, hmem⟩ := collect_spec
    (m := ⟨sn.scan (InRange start limit), (Writes.last ops).scan (InRange start limit),
      .notInitialized⟩) pairwise_scan pairwise_scan (Nat.le_add_right _ n)
  refine eq_scan_iff.mpr ⟨hinc, fun k v ↦ (hmem k v).trans ?_⟩
  change Shows (scan _ sn) (scan _ (Writes.last ops)) k v ↔ _
  rw [Shows, mem_scan, mem_scan, Writes.lookup_writeAll]
  have hnot : (∀ v', (k, v') ∉ scan (InRange start limit) (Writes.last ops)) ↔
      (InRange start limit k → (Writes.last ops).lookup k = none) := by
    simp only [mem_scan, not_and, eq_none_iff_forall_ne_some]
    exact ⟨fun h hk v' ↦ h v' hk, fun h v' hk ↦ h hk v'⟩
  rw [hnot]
  rcases hw : (Writes.last ops).lookup k with _ | v'
  · simp
  · simp only [reduceCtorEq, getD_some, some.injEq]
    tauto

/-- A key of `2 ^ 29` bytes is written as the empty key: its length in bits does not fit. -/
theorem Writes.write_of_bitlen_eq_zero {key : Bytes} (h : Ptrie.bitlen key = 0) (v : Option Bytes) :
    Writes.write .nil (key, v) = some (.node [] 0 (some v) .nil .nil) := by
  rw [Writes.write, Ptrie.PNode.put, Ptrie.PNode.putInternal, if_pos h]
  rfl

end Vanadium.Transactions
