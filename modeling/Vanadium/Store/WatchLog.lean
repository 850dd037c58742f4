import Vanadium.Store.Watchable

/-!
# The watch log

Transactions of the watchable store commit one at a time and append their operations to the log;
clients read the log batch by batch. A client reads the live store and not a snapshot: between two
calls of `Advance` other transactions may commit. The stream of the wrapped store may or may not
show what was committed after the stream was made, but each state it shows is the one at some
commit, and it never goes back to an earlier one.

`System` has the transactions and the clients of one store. Its history variables are the states the
wrapped store has had (`versions`), what was logged (`commits`), and the outcomes of the finished
calls of each client. The stream over the log is one of the wrapped store: the log is not under a
managed prefix.
-/

namespace Vanadium.Watchable

open Foundations Transition Table Vanadium.Store List Option Committed

/-! ## Reading a batch -/

/-- The key comes after the one that was staged last, if any was. -/
def After (last : Option Bytes) (key : Bytes) : Prop := ∀ k ∈ last, k < key

instance (last : Option Bytes) : DecidablePred (After last) := fun key ↦
  inferInstanceAs (Decidable (∀ k ∈ last, k < key))

/-- What `Advance` of a stream of the wrapped store stages next in a state of the store. -/
def streamNext (view : View) (start limit : Bytes) (last : Option Bytes) : Option (Bytes × Bytes) :=
  (view.scan start limit).find? fun e ↦ After last e.1

/-- The variables of a call of `readBatchFromLog`. The stream has last shown the version `seen` of
the store; `called` is the number of commits in the log when the call began. -/
structure Reading where
  last : Option Bytes
  seen : ℕ
  called : ℕ
  logs : List LogEntry
  seq : ℕ
  deriving DecidableEq

/-- One turn of the loop of `readBatchFromLog`. -/
inductive Turn where
  | more (rd : Reading)
  | done (logs : Option (List LogEntry)) (seq : ℕ)
  | fail (e : StoreErr)
  deriving DecidableEq

/-- The body of the loop, and what follows the loop if the stream has ended. -/
def Reading.turn [PrefixRange] (codec : Codec) (view : View) (start : Bytes)
    (rd : Reading) : Turn :=
  match streamNext view start logLimit rd.last with
  | some (key, value) =>
    match codec.decode value with
    | .error e => .fail e
    | .ok logEnt =>
      let logs := rd.logs ++ [logEnt]
      if logEnt.continued = false then .done (some logs) (rd.seq + 1)
      else .more { rd with last := some key, logs := logs, seq := rd.seq + 1 }
  | none =>
    if rd.logs.length > 0 then
      .fail (.internal ("end of batch not found after " ++ toString rd.logs.length ++ " entries"))
    else .done none rd.seq

/-- `Client`. `start` is the sequence number it was made with; `outcomes` has what its finished
calls returned, with the number of commits in the log when they began. -/
structure Client where
  start : ℕ
  prevSeq : ℕ
  nextSeq : ℕ
  err : Option StoreErr
  reading : Option Reading
  outcomes : List (ℕ × Option (List LogEntry))
  deriving DecidableEq

def newClient (seq : ℕ) : Client := ⟨seq, seq, seq, none, none, []⟩

/-- The batches that were returned. -/
def Client.batches (c : Client) : List (List LogEntry) := c.outcomes.filterMap (·.2)

/-- `NextBatchFromLog` after a turn of the loop. -/
def Client.afterTurn (c : Client) (called : ℕ) : Turn → Client
  | .more rd => { c with reading := some rd }
  | .done logs seq =>
    { c with
      reading := none
      prevSeq := c.nextSeq
      nextSeq := seq
      outcomes := c.outcomes ++ [(called, logs)] }
  | .fail e => { c with reading := none, err := some e }

/-! ## The system -/

/-- A state of the wrapped store, with the number of commits in its log. -/
structure Version where
  view : View
  commits : ℕ

structure System where
  store : Store
  txs : Table ℕ Transaction
  clients : Table ℕ Client
  versions : List Version
  commits : List Committed

/-- The store with no open transactions and no clients. -/
def System.initial (st : Store) : System := ⟨st, ∅, ∅, [⟨st.ist, 0⟩], []⟩

inductive Action where
  | newTransaction (t : ℕ)
  | request (t : ℕ) (r : Request)
  | commit (t : ℕ) (now : Except StoreErr ℤ) (verdict : Except StoreErr Unit)
  | abort (t : ℕ)
  | watch (c : ℕ) (seq : ℕ)
  | call (c : ℕ)
  | advance (c : ℕ) (k : ℕ)

namespace System

/-- What is recorded of a commit that succeeded: the new state of the store, and the operations if
there are any. -/
def record (s : System) (st : Store) (c : Committed) : System :=
  let commits := if c.ops = [] then s.commits else s.commits ++ [c]
  { s with
    store := st
    commits := commits
    versions := s.versions ++ [⟨st.ist, commits.length⟩] }

def commit (codec : Codec) (s : System) (t : ℕ) (tx : Transaction) (now : Except StoreErr ℤ)
    (verdict : Except StoreErr Unit) : System :=
  match tx.commit codec s.store now verdict, now with
  | (st, tx', .ok ()), .ok time =>
    { s.record st (tx.committed time) with txs := AList.insert t tx' s.txs }
  | (st, tx', _), _ => { s with store := st, txs := AList.insert t tx' s.txs }

/-- Begin a call of `NextBatchFromLog`. A stopped client returns at once; the other cases of
`managesRange` do not arise for a log that is not under a managed prefix. -/
def call [PrefixRange] (opts : Options) (s : System) (i : ℕ) (c : Client) : Option System :=
  match c.err, c.reading with
  | some _, _ => some s
  | none, some _ => none
  | none, none =>
    match opts.managesRange (logEntryKey c.nextSeq) logLimit with
    | some false =>
      let rd : Reading := ⟨none, s.versions.length - 1, s.commits.length, [], c.nextSeq⟩
      some { s with clients := AList.insert i { c with reading := some rd } s.clients }
    | _ => none

/-- One `Advance` of a call that is under way, which shows version `k` of the store. -/
def advance [PrefixRange] (codec : Codec) (s : System) (i : ℕ) (c : Client) (k : ℕ) :
    Option System :=
  match c.reading, s.versions[k]? with
  | some rd, some v =>
    if rd.seen ≤ k then
      let turn := Reading.turn codec v.view (logEntryKey c.nextSeq) { rd with seen := k }
      some { s with clients := AList.insert i (c.afterTurn rd.called turn) s.clients }
    else none
  | _, _ => none

/-- One step of the store, of a transaction or of a client. -/
def step [PrefixRange] (opts : Options) (codec : Codec) (s : System) : Action → Option System
  | .newTransaction t =>
    match AList.lookup t s.txs with
    | some _ => none
    | none => some { s with txs := AList.insert t (Watchable.newTransaction s.store.ist) s.txs }
  | .request t r =>
    match AList.lookup t s.txs with
    | none => none
    | some tx => (tx.perform opts r).map fun tx' ↦ { s with txs := AList.insert t tx' s.txs }
  | .commit t now verdict =>
    match AList.lookup t s.txs with
    | none => none
    | some tx => some (s.commit codec t tx now verdict)
  | .abort t =>
    match AList.lookup t s.txs with
    | none => none
    | some tx => some { s with txs := AList.insert t tx.abort s.txs }
  | .watch i seq =>
    match AList.lookup i s.clients with
    | some _ => none
    | none => some { s with clients := AList.insert i (newClient seq) s.clients }
  | .call i =>
    match AList.lookup i s.clients with
    | none => none
    | some c => s.call opts i c
  | .advance i k =>
    match AList.lookup i s.clients with
    | none => none
    | some c => s.advance codec i c k

end System

/-- The entries of the log. -/
def entriesOf (commits : List Committed) : List LogEntry := commits.flatMap Committed.entries

/-- The sequence number after the first `j` commits, the log having begun at `base`. -/
def endSeq (base : ℕ) (commits : List Committed) (j : ℕ) : ℕ :=
  base + (entriesOf (commits.take j)).length

/-- What clients of the store keep to: requests do not write to keys of the log, and a client is
started at the end of a batch. -/
def Action.Allowed (opts : Options) (base : ℕ) (s : System) : Action → Prop
  | .request _ r => ∀ w ∈ r.writes opts, firstKeyPart w.1 ≠ logPrefix
  | .watch _ seq => ∃ j ∈ range (s.commits.length + 1), seq = endSeq base s.commits j
  | _ => True

instance (opts : Options) (base : ℕ) (s : System) (a : Action) :
    Decidable (a.Allowed opts base s) :=
  match a with
  | .request _ r =>
    inferInstanceAs (Decidable (∀ w ∈ r.writes opts, firstKeyPart w.1 ≠ logPrefix))
  | .watch _ seq =>
    inferInstanceAs (Decidable (∃ j ∈ range (s.commits.length + 1),
      seq = endSeq base s.commits j))
  | .newTransaction _ | .commit _ _ _ | .abort _ | .call _ | .advance _ _ =>
    inferInstanceAs (Decidable True)

/-! ## The log in a state of the store -/

/-- The log of the view, from `base` on, is the given list of entries. -/
structure LogHolds [PrefixRange] (codec : Codec) (base : ℕ) (entries : List LogEntry)
    (view : View) : Prop where
  stored : ∀ {i e}, entries[i]? = some e →
    AList.lookup (logEntryKey (base + i)) view = some (codec.encode e)
  only : ∀ {key value}, InRange (joinKeyParts [logPrefix, []]) logLimit key →
    AList.lookup key view = some value → ∃ i < entries.length, key = logEntryKey (base + i)

theorem inRange_logEntryKey [PrefixRange] (n : ℕ) :
    InRange (joinKeyParts [logPrefix, []]) logLimit (logEntryKey n) :=
  ⟨(join_le_join_iff logPrefix).mpr (nil_le _), Or.inr (logEntryKey_lt_logLimit n)⟩

theorem firstKeyPart_of_inRange_log [PrefixRange] {key : Bytes}
    (h : InRange (joinKeyParts [logPrefix, []]) logLimit key) : firstKeyPart key = logPrefix := by
  obtain ⟨rest, rfl⟩ := (inRange_prefixRangeLimit _ _).mp h
  have hjoin : joinKeyParts [logPrefix, []] ++ rest = joinKeyParts [logPrefix, rest] := by
    rw [joinKeyParts_eq_append, joinKeyParts_eq_append, append_nil]
  rfl

variable {n base b : ℕ} {commits : List Committed} {versions : List Version} {rd : Reading}
  {logs : Option (List LogEntry)} {tx : Transaction} {v : Version} {k : ℕ}

theorem lt_of_le_maxUint64 (h : n ≤ maxUint64) : n < 16 ^ 16 := by
  rw [maxUint64] at h
  omega

theorem logEntryKey_le_iff {m : ℕ} (hm : m ≤ maxUint64) (hn : n ≤ maxUint64) :
    logEntryKey m ≤ logEntryKey n ↔ m ≤ n := by
  rw [← not_lt, logEntryKey_lt_iff (lt_of_le_maxUint64 hn) (lt_of_le_maxUint64 hm), not_lt]

namespace LogHolds

variable [PrefixRange] {codec : Codec} {base : ℕ} {entries : List LogEntry} {view : View}

variable (h : LogHolds codec base entries view)
include h

theorem writeAll {ws : List (Bytes × Option Bytes)}
    (hws : ∀ w ∈ ws, firstKeyPart w.1 ≠ logPrefix) :
    LogHolds codec base entries (view.writeAll ws) := by
  have hsame : ∀ key, firstKeyPart key = logPrefix →
      (view.writeAll ws).lookup key = view.lookup key := by
    intro key hkey
    apply lookup_writeAll_of_notMem
    rintro w hw rfl
    exact hws w hw hkey
  constructor
  · intro i e he
    rw [hsame _ (firstKeyPart_logEntryKey _)]
    exact h.stored he
  · intro key value hkey hval
    rw [hsame _ (firstKeyPart_of_inRange_log hkey)] at hval
    exact h.only hkey hval

/-- The write of the next entry appends it to the log. -/
theorem concat (e : LogEntry)
    (hbound : base + entries.length ≤ maxUint64) :
    LogHolds codec base (entries ++ [e])
      (view.write (logEntryKey (base + entries.length), some (codec.encode e))) := by
  constructor
  · intro i e' he
    rw [lookup_write]
    rcases lt_or_ge i entries.length with hi | hi
    · have hne : logEntryKey (base + i) ≠ logEntryKey (base + entries.length) := by
        intro heq
        have := logEntryKey_inj (lt_of_le_maxUint64 (by omega)) (lt_of_le_maxUint64 hbound) heq
        omega
      rw [if_neg hne]
      rw [getElem?_append_left hi] at he
      exact h.stored he
    · rw [getElem?_append_right hi, getElem?_singleton] at he
      split at he
      · rename_i hzero
        obtain rfl : i = entries.length := by omega
        rw [if_pos rfl, some.inj he]
      · cases he
  · intro key value hkey hval
    rw [lookup_write] at hval
    rw [length_append, length_singleton]
    by_cases heq : key = logEntryKey (base + entries.length)
    · exact ⟨entries.length, by omega, heq⟩
    · rw [if_neg heq] at hval
      obtain ⟨i, hi, hkey⟩ := h.only hkey hval
      exact ⟨i, by omega, hkey⟩

omit h in
/-- The writes of a commit append its entries to the log. -/
theorem append {new : List LogEntry} {entries : List LogEntry} {view : View}
    (h : LogHolds codec base entries view)
    (hbound : base + entries.length + new.length ≤ maxUint64) :
    LogHolds codec base (entries ++ new)
      (view.writeAll (logWrites codec (base + entries.length) new)) := by
  induction new generalizing entries view with
  | nil => rwa [append_nil]
  | cons e new ih =>
    rw [length_cons] at hbound
    have hnext := ih (h.concat e (by omega)) (by rw [length_append, length_singleton]; omega)
    have hwrites : logWrites codec (base + entries.length) (e :: new)
        = (logEntryKey (base + entries.length), some (codec.encode e)) ::
          logWrites codec (base + (entries ++ [e]).length) new := by
      rw [logWrites, mapIdx_cons, logWrites, length_append, length_singleton]
      simp only [Nat.add_zero, Nat.add_assoc, Nat.add_comm 1]
    rw [hwrites, writeAll_cons]
    rwa [append_assoc, singleton_append] at hnext

theorem scan_eq
    (hbound : base + entries.length ≤ maxUint64) :
    view.scan (joinKeyParts [logPrefix, []]) logLimit
      = entries.mapIdx fun i e ↦ (logEntryKey (base + i), codec.encode e) := by
  rw [View.scan, eq_comm, eq_scan_iff]
  constructor
  · rw [pairwise_iff_getElem]
    intro i j hi hj hij
    rw [length_mapIdx] at hi hj
    rw [getElem_mapIdx, getElem_mapIdx]
    exact (logEntryKey_lt_iff (lt_of_le_maxUint64 (by omega)) (lt_of_le_maxUint64 (by omega))).mpr
      (by omega)
  · intro key value
    rw [mem_mapIdx]
    constructor
    · rintro ⟨i, hi, heq⟩
      cases heq
      exact ⟨inRange_logEntryKey _, h.stored (getElem?_eq_getElem hi)⟩
    · rintro ⟨hkey, hval⟩
      obtain ⟨i, hi, rfl⟩ := h.only hkey hval
      rw [h.stored (getElem?_eq_getElem hi)] at hval
      exact ⟨i, hi, by rw [some.inj hval]⟩

/-- **What the stream stages next.** If the keys after `last` are those from sequence number
`base + i` on, it is entry `i` of the log. -/
theorem streamNext_eq
    (hbound : base + entries.length ≤ maxUint64) {a i : ℕ} {last : Option Bytes}
    (ha : base + a ≤ maxUint64) (hai : a ≤ i)
    (hlast : ∀ m ≤ maxUint64, base + a ≤ m → (After last (logEntryKey m) ↔ base + i ≤ m)) :
    streamNext view (logEntryKey (base + a)) logLimit last
      = (entries[i]?).map fun e ↦ (logEntryKey (base + i), codec.encode e) := by
  have hlog : ∀ {key}, InRange (logEntryKey (base + a)) logLimit key →
      InRange (joinKeyParts [logPrefix, []]) logLimit key := fun hkey ↦
    ⟨(inRange_logEntryKey _).1.trans hkey.1, hkey.2⟩
  -- a key that the stream may show is an entry from `base + a` on
  have hkeys : ∀ key value, InRange (logEntryKey (base + a)) logLimit key →
      view.lookup key = some value →
      ∃ m, m < entries.length ∧ a ≤ m ∧ key = logEntryKey (base + m) := by
    intro key value hkey hval
    obtain ⟨m, hm, rfl⟩ := h.only (hlog hkey) hval
    have hle := (logEntryKey_le_iff ha (by omega)).mp hkey.1
    exact ⟨m, hm, by omega, rfl⟩
  rcases he : entries[i]? with _ | e
  · rw [getElem?_eq_none_iff] at he
    apply find?_scan_eq_none
    intro key value hkey hval
    obtain ⟨m, hm, ham, rfl⟩ := hkeys key value hkey hval
    rw [hlast (base + m) (by omega) (by omega)]
    omega
  · obtain ⟨hi, -⟩ := List.getElem?_eq_some_iff.mp he
    apply find?_scan_eq_some
    · refine ⟨?_, Or.inr (logEntryKey_lt_logLimit _)⟩
      exact (logEntryKey_le_iff (by omega) (by omega)).mpr (by omega)
    · exact h.stored he
    · exact (hlast (base + i) (by omega) (by omega)).mpr le_rfl
    · intro key value hkey hval hafter
      obtain ⟨m, hm, ham, rfl⟩ := hkeys key value hkey hval
      rw [hlast (base + m) (by omega) (by omega)] at hafter
      exact (logEntryKey_le_iff (by omega) (by omega)).mpr hafter

end LogHolds

/-! ## Batches in the log -/

theorem Committed.length_entries (c : Committed) : c.entries.length = c.ops.length :=
  length_mapIdx

theorem Committed.map_op_entries (c : Committed) : c.entries.map LogEntry.op = c.ops := by
  apply ext_getElem?
  intro i
  rw [getElem?_map, entries, getElem?_mapIdx, Option.map_map]
  exact Option.map_id'

theorem Committed.continued_eq_false_iff {c : Committed} {i : ℕ} {e : LogEntry}
    (h : c.entries[i]? = some e) : e.continued = false ↔ i + 1 = c.ops.length := by
  rw [entries, getElem?_mapIdx] at h
  obtain ⟨op, hop, rfl⟩ := map_eq_some_iff.mp h
  obtain ⟨hi, -⟩ := List.getElem?_eq_some_iff.mp hop
  rw [decide_eq_false_iff_not]
  omega

theorem entriesOf_append (l l' : List Committed) :
    entriesOf (l ++ l') = entriesOf l ++ entriesOf l' := List.flatMap_append

theorem entriesOf_cons (c : Committed) (l : List Committed) :
    entriesOf (c :: l) = c.entries ++ entriesOf l := flatMap_cons

section Batches

variable {base : ℕ} {commits : List Committed} {b m n : ℕ} {c : Committed}

theorem endSeq_succ (h : commits[b]? = some c) :
    endSeq base commits (b + 1) = endSeq base commits b + c.ops.length := by
  rw [endSeq, endSeq, take_add_one, h, toList_some, entriesOf_append, entriesOf_cons,
    length_append, length_append, c.length_entries]
  exact (Nat.add_assoc _ _ _).symm

theorem endSeq_append (h : b ≤ commits.length) (l : List Committed) :
    endSeq base (commits ++ l) b = endSeq base commits b := by
  rw [endSeq, endSeq, take_append_of_le_length h]

theorem length_entriesOf_le {l l' : List Committed} (h : l <+ l') :
    (entriesOf l).length ≤ (entriesOf l').length := (h.flatMap entries).length_le

theorem endSeq_le : endSeq base commits b ≤ base + (entriesOf commits).length :=
  Nat.add_le_add_left (length_entriesOf_le (take_sublist _ _)) base

theorem getElem?_entriesOf (h : commits[b]? = some c) (hn : n < c.ops.length) :
    (entriesOf commits)[(entriesOf (commits.take b)).length + n]? = c.entries[n]? := by
  obtain ⟨hb, hc⟩ := List.getElem?_eq_some_iff.mp h
  have hsplit : entriesOf commits
      = entriesOf (commits.take b) ++ (c.entries ++ entriesOf (commits.drop (b + 1))) := by
    rw [← entriesOf_cons, ← entriesOf_append, ← hc, ← List.drop_eq_getElem_cons hb,
      take_append_drop]
  rw [hsplit, getElem?_append_right (Nat.le_add_right _ _), Nat.add_sub_cancel_left,
    getElem?_append_left (by rw [c.length_entries]; exact hn)]

theorem getElem?_entriesOf_take (h : commits[b]? = some c) (hb : b < m) (hn : n < c.ops.length) :
    (entriesOf (commits.take m))[(entriesOf (commits.take b)).length + n]? = c.entries[n]? := by
  have htake : (commits.take m).take b = commits.take b := by rw [take_take, Nat.min_eq_left hb.le]
  rw [← htake]
  exact getElem?_entriesOf (by rw [getElem?_take_of_lt hb]; exact h) hn

theorem getElem?_entriesOf_take_of_le (h : m ≤ b) :
    (entriesOf (commits.take m))[(entriesOf (commits.take b)).length]? = none :=
  getElem?_eq_none_iff.mpr (length_entriesOf_le (take_prefix_take_left h).sublist)

end Batches

/-! ## One call -/

/-- A call under way: `n` entries of batch `b` have been read. Once there is one, the version that
the stream shows has the whole batch. -/
structure ReadingInv (base : ℕ) (commits : List Committed) (versions : List Version) (b : ℕ)
    (rd : Reading) (n : ℕ) : Prop where
  version : ∃ v, versions[rd.seen]? = some v ∧ rd.called ≤ v.commits ∧ (0 < n → b < v.commits)
  seq : rd.seq = endSeq base commits b + n
  first : n = 0 → rd.logs = [] ∧ rd.last = none
  later : 0 < n → ∃ c, commits[b]? = some c ∧ n < c.ops.length ∧ rd.logs = c.entries.take n ∧
    rd.last = some (logEntryKey (endSeq base commits b + n - 1))

theorem ReadingInv.after_iff {m : ℕ} (h : ReadingInv base commits versions b rd n)
    (hbound : endSeq base commits b + n ≤ maxUint64 + 1) (hm : m ≤ maxUint64)
    (hle : endSeq base commits b ≤ m) :
    After rd.last (logEntryKey m) ↔ endSeq base commits b + n ≤ m := by
  rcases Nat.eq_zero_or_pos n with hn | hn
  · rw [(h.first hn).2]
    refine iff_of_true (fun k hk ↦ ?_) (by omega)
    cases hk
  · obtain ⟨-, -, -, -, hlast⟩ := h.later hn
    rw [hlast]
    have hkey := logEntryKey_lt_iff (m := endSeq base commits b + n - 1)
      (lt_of_le_maxUint64 (by omega)) (lt_of_le_maxUint64 hm)
    constructor
    · intro hafter
      have := hkey.mp (hafter _ rfl)
      omega
    · rintro hle' k hk
      obtain rfl := some.inj hk
      exact hkey.mpr (by omega)

/-- **One turn of the loop**: the stream has ended before the first entry, or it shows the next
entry of the batch. -/
theorem ReadingInv.turn [PrefixRange] {codec : Codec} {turn : Turn}
    (h : ReadingInv base commits versions b rd n) (hops : ∀ c ∈ commits, c.ops ≠ [])
    (hbound : base + (entriesOf commits).length ≤ maxUint64)
    (hk : versions[k]? = some v) (hmono : ∀ w, versions[rd.seen]? = some w → w.commits ≤ v.commits)
    (hv : v.commits ≤ commits.length)
    (hlog : LogHolds codec base (entriesOf (commits.take v.commits)) v.view)
    (hturn : Reading.turn codec v.view (logEntryKey (endSeq base commits b))
      { rd with seen := k } = turn) :
    (rd.called ≤ b ∧ turn = .done none (endSeq base commits b)) ∨
      ∃ c, commits[b]? = some c ∧
        ((∃ rd', turn = .more rd' ∧ ReadingInv base commits versions b rd' (n + 1)) ∨
          turn = .done (some c.entries) (endSeq base commits (b + 1))) := by
  obtain ⟨w, hw, hcalled, hwhole⟩ := h.version
  have hwv := hmono w hw
  have hend : endSeq base commits b ≤ maxUint64 := endSeq_le.trans hbound
  have hlen : endSeq base commits v.commits ≤ maxUint64 := endSeq_le.trans hbound
  rcases lt_or_ge b v.commits with hbv | hbv
  · obtain ⟨c, hc⟩ : ∃ c, commits[b]? = some c := ⟨_, getElem?_eq_getElem (hbv.trans_le hv)⟩
    have hn : n < c.ops.length := by
      rcases Nat.eq_zero_or_pos n with hn | hn
      · rw [hn]
        exact length_pos_iff.mpr (hops c (mem_of_getElem? hc))
      · obtain ⟨c', hc', hn', -⟩ := h.later hn
        rw [hc] at hc'
        rwa [some.inj hc']
    have hsucc : endSeq base commits (b + 1) ≤ base + (entriesOf commits).length := endSeq_le
    rw [endSeq_succ hc] at hsucc
    obtain ⟨e, he⟩ : ∃ e, c.entries[n]? = some e :=
      ⟨_, getElem?_eq_getElem (by rw [c.length_entries]; exact hn)⟩
    have hnext : streamNext v.view (logEntryKey (endSeq base commits b)) logLimit rd.last
        = some (logEntryKey (endSeq base commits b + n), codec.encode e) := by
      rw [endSeq, hlog.streamNext_eq hlen hend
        (Nat.le_add_right _ n) fun m hm hle ↦ ?_, getElem?_entriesOf_take hc hbv hn, he,
        map_some, Nat.add_assoc]
      rw [h.after_iff (by omega) hm hle, endSeq, Nat.add_assoc]
    have hlogs : rd.logs ++ [e] = c.entries.take (n + 1) := by
      rw [take_add_one, he, toList_some]
      rcases Nat.eq_zero_or_pos n with hn | hn
      · rw [(h.first hn).1, hn, take_zero]
      · obtain ⟨c', hc', -, hlogs, -⟩ := h.later hn
        rw [hc] at hc'
        rw [hlogs, some.inj hc']
    refine Or.inr ⟨c, hc, ?_⟩
    rw [← hturn, Reading.turn]
    simp only [hnext, codec.decode_encode, hlogs]
    -- the last entry of the batch ends the call
    by_cases hlast : n + 1 = c.ops.length
    · have hall : c.entries.take (n + 1) = c.entries :=
        take_of_length_le (by rw [c.length_entries, hlast])
      right
      rw [if_pos ((continued_eq_false_iff he).mpr hlast), hall, endSeq_succ hc, h.seq,
        ← hlast, Nat.add_assoc]
    · left
      rw [if_neg fun hf ↦ hlast ((continued_eq_false_iff he).mp hf)]
      refine ⟨_, rfl, ⟨v, hk, hcalled.trans hwv, fun _ ↦ hbv⟩, ?_, fun hz ↦ ?_, fun _ ↦ ?_⟩
      · rw [h.seq, Nat.add_assoc]
      · omega
      · exact ⟨c, hc, by omega, rfl, rfl⟩
  · -- nothing was read, since the version shown before would have the whole batch
    have hn : n = 0 := by
      rcases Nat.eq_zero_or_pos n with hn | hn
      · exact hn
      · have := hwhole hn
        omega
    have hnext : streamNext v.view (logEntryKey (endSeq base commits b)) logLimit rd.last
        = none := by
      rw [endSeq, hlog.streamNext_eq hlen hend
        le_rfl fun m hm hle ↦ ?_, getElem?_entriesOf_take_of_le hbv, map_none]
      rw [h.after_iff (by omega) hm hle, endSeq, hn, Nat.add_zero]
    left
    refine ⟨by omega, ?_⟩
    rw [← hturn, Reading.turn]
    simp only [hnext, (h.first hn).1, length_nil, gt_iff_lt, lt_irrefl, if_false, h.seq, hn,
      Nat.add_zero]

theorem ReadingInv.append (h : ReadingInv base commits versions b rd n) (hb : b ≤ commits.length)
    (l : List Committed) (vs : List Version) :
    ReadingInv base (commits ++ l) (versions ++ vs) b rd n := by
  refine ⟨?_, ?_, h.first, fun hn ↦ ?_⟩
  · obtain ⟨v, hv, hcalled⟩ := h.version
    obtain ⟨hlt, -⟩ := List.getElem?_eq_some_iff.mp hv
    exact ⟨v, by rwa [List.getElem?_append_left hlt], hcalled⟩
  · rw [endSeq_append hb]
    exact h.seq
  · obtain ⟨c, hc, hlater⟩ := h.later hn
    obtain ⟨hlt, -⟩ := List.getElem?_eq_some_iff.mp hc
    rw [endSeq_append hb]
    exact ⟨c, by rwa [List.getElem?_append_left hlt], hlater⟩

/-! ## Clients -/

/-- What a client has been given: the batches that follow its start, the first one being batch
`j`. A call that returned no batch had begun when there was none to return. -/
structure ClientInv (base : ℕ) (commits : List Committed) (versions : List Version) (c : Client)
    (j : ℕ) : Prop where
  err : c.err = none
  le : j + c.batches.length ≤ commits.length
  start : c.start = endSeq base commits j
  next : c.nextSeq = endSeq base commits (j + c.batches.length)
  batches : c.batches = ((commits.drop j).take c.batches.length).map Committed.entries
  nils : ∀ {before called after}, c.outcomes = before ++ (called, none) :: after →
    called ≤ j + (before.filterMap (·.2)).length
  reading : ∀ {rd}, c.reading = some rd →
    ∃ n, ReadingInv base commits versions (j + c.batches.length) rd n

namespace ClientInv

variable {base j : ℕ} {commits : List Committed} {versions : List Version} {c : Client}

theorem append (h : ClientInv base commits versions c j) (l : List Committed) (vs : List Version) :
    ClientInv base (commits ++ l) (versions ++ vs) c j where
  err := h.err
  le := by
    rw [length_append]
    exact h.le.trans (Nat.le_add_right _ _)
  start := by
    rw [endSeq_append ((Nat.le_add_right _ _).trans h.le)]
    exact h.start
  next := by
    rw [endSeq_append h.le]
    exact h.next
  batches := by
    have hle := h.le
    rw [drop_append_of_le_length (by omega), take_append_of_le_length (by rw [length_drop]; omega)]
    exact h.batches
  nils := h.nils
  reading hrd := by
    obtain ⟨n, hn⟩ := h.reading hrd
    exact ⟨n, hn.append h.le l vs⟩

theorem newClient (hj : j ≤ commits.length) :
    ClientInv base commits versions (newClient (endSeq base commits j)) j where
  err := rfl
  le := hj
  start := rfl
  next := rfl
  batches := rfl
  nils heq := absurd heq (by simp [Watchable.newClient])
  reading hrd := by cases hrd

variable {called : ℕ}

variable (h : ClientInv base commits versions c j)
include h

theorem call
    (hv : versions[k]? = some v) (hcalled : called ≤ v.commits) :
    ClientInv base commits versions { c with reading := some ⟨none, k, called, [], c.nextSeq⟩ } j :=
  { h with
    reading := fun hrd ↦ by
      cases hrd
      exact ⟨0, ⟨v, hv, hcalled, fun h ↦ absurd h (lt_irrefl 0)⟩, h.next, fun _ ↦ ⟨rfl, rfl⟩,
        fun h ↦ absurd h (lt_irrefl 0)⟩ }

theorem outcomes_nils
    (hnil : logs = none → called ≤ j + c.batches.length)
    {before after : List (ℕ × Option (List LogEntry))} {called' : ℕ}
    (heq : c.outcomes ++ [(called, logs)] = before ++ (called', none) :: after) :
    called' ≤ j + (before.filterMap (·.2)).length := by
  rcases eq_nil_or_concat after with rfl | ⟨after, last, rfl⟩
  · -- the outcome that was added
    obtain ⟨rfl, hlast⟩ := append_inj' heq rfl
    cases hlast
    exact hnil rfl
  · rw [concat_eq_append, ← cons_append, ← append_assoc] at heq
    exact h.nils (append_inj' heq rfl).1

/-- The call returns the next batch, or that there is none. -/
theorem done
    (hnil : logs = none → called ≤ j + c.batches.length)
    (hlogs : ((commits.drop (j + c.batches.length)).take logs.toList.length).map entries =
      logs.toList) :
    ClientInv base commits versions (c.afterTurn called
      (.done logs (endSeq base commits (j + c.batches.length + logs.toList.length)))) j := by
  have hbatches : ∀ seq, (c.afterTurn called (.done logs seq)).batches =
    c.batches ++ logs.toList := by
    intro seq
    rw [Client.batches, Client.afterTurn, filterMap_append]
    cases logs <;> rfl
  have hlen := congrArg length hlogs
  rw [length_map, length_take, length_drop] at hlen
  have hle := h.le
  constructor
  · exact h.err
  · rw [hbatches, length_append]
    omega
  · exact h.start
  · rw [hbatches, length_append, ← Nat.add_assoc]
    rfl
  · rw [hbatches, length_append, take_add, map_append, ← h.batches, drop_drop, hlogs]
  · exact fun heq ↦ h.outcomes_nils hnil heq
  · exact fun hrd ↦ nomatch hrd

theorem more {n : ℕ} {rd : Reading}
    (hrd : ReadingInv base commits versions (j + c.batches.length) rd n) :
    ClientInv base commits versions (c.afterTurn called (.more rd)) j :=
  { h with
    reading := fun heq ↦ by
      cases heq
      exact ⟨n, hrd⟩ }

end ClientInv

/-! ## The invariant -/

/-- The log of every state of the store is that of its commits, and every client has been given the
batches from its start on. -/
structure Inv [PrefixRange] (codec : Codec) (base : ℕ) (s : System) : Prop where
  seq : s.store.seq = base + (entriesOf s.commits).length
  bound : s.store.seq ≤ maxUint64
  ops : ∀ c ∈ s.commits, c.ops ≠ []
  current : s.versions.getLast? = some ⟨s.store.ist, s.commits.length⟩
  versions : ∀ v ∈ s.versions, v.commits ≤ s.commits.length ∧
    LogHolds codec base (entriesOf (s.commits.take v.commits)) v.view
  mono : s.versions.Pairwise fun v w ↦ v.commits ≤ w.commits
  writes : ∀ {t tx}, AList.lookup t s.txs = some tx →
    ∀ w ∈ tx.writes, firstKeyPart w.1 ≠ logPrefix
  clients : ∀ {i c}, AList.lookup i s.clients = some c →
    ∃ j, ClientInv base s.commits s.versions c j

namespace Inv

variable [PrefixRange] {opts : Options} {codec : Codec} {base : ℕ} {s : System} {st : Store}

theorem initial (hbound : st.seq ≤ maxUint64)
    (hempty : ∀ key, InRange (joinKeyParts [logPrefix, []]) logLimit key →
      st.ist.lookup key = none) : Inv codec st.seq (System.initial st) where
  seq := rfl
  bound := hbound
  ops _ hc := absurd hc not_mem_nil
  current := rfl
  versions v hv := by
    obtain rfl := mem_singleton.mp hv
    refine ⟨le_rfl, fun {i e} he ↦ ?_, fun {key value} hkey hval ↦ ?_⟩
    · cases he
    · rw [hempty key hkey] at hval
      cases hval
  mono := pairwise_singleton _ _
  writes h := by simp [System.initial] at h
  clients h := by simp [System.initial] at h

variable (h : Inv codec base s) {t : ℕ}
include h

theorem set_tx
    (htx : ∀ w ∈ tx.writes, firstKeyPart w.1 ≠ logPrefix) :
    Inv codec base { s with txs := s.txs.insert t tx } :=
  { h with
    writes := fun {t' tx'} hlookup ↦ by
      rw [lookup_insert_eq_ite] at hlookup
      split at hlookup
      · cases hlookup
        exact htx
      · exact h.writes hlookup }

variable {i : ℕ} {c : Client} {s' : System}

theorem set_client {j : ℕ} (hc : ClientInv base s.commits s.versions c j) :
    Inv codec base { s with clients := s.clients.insert i c } :=
  { h with
    clients := fun {i' c'} hlookup ↦ by
      rw [lookup_insert_eq_ite] at hlookup
      split at hlookup
      · cases hlookup
        exact ⟨j, hc⟩
      · exact h.clients hlookup }

/-- A commit that succeeded. A transaction without operations leaves the log as it is. -/
theorem record {c : Committed}
    (hseq : st.seq = s.store.seq + c.ops.length) (hbound : st.seq ≤ maxUint64)
    (hlog : LogHolds codec base (entriesOf s.commits ++ c.entries) st.ist) :
    Inv codec base (s.record st c) := by
  obtain ⟨l, hl, hlc, hlops⟩ : ∃ l, (if c.ops = [] then s.commits else s.commits ++ [c])
      = s.commits ++ l ∧ entriesOf l = c.entries ∧ ∀ c' ∈ l, c'.ops ≠ [] := by
    by_cases hops : c.ops = []
    · refine ⟨[], by rw [if_pos hops, append_nil], ?_, fun c' hc' ↦ ?_⟩
      · rw [entries, hops]
        rfl
      · exact absurd hc' not_mem_nil
    · refine ⟨[c], if_neg hops, ?_, fun c' hc' ↦ ?_⟩
      · exact append_nil _
      · rwa [mem_singleton.mp hc']
  have hrecord : s.record st c = { s with
      store := st
      commits := s.commits ++ l
      versions := s.versions ++ [⟨st.ist, (s.commits ++ l).length⟩] } := by
    rw [System.record, hl]
  rw [hrecord]
  have hnew : LogHolds codec base (entriesOf ((s.commits ++ l).take (s.commits ++ l).length))
      st.ist := by
    rw [take_length, entriesOf_append, hlc]
    exact hlog
  refine ⟨?_, hbound, ?_, ?_, ?_, ?_, h.writes, ?_⟩
  · rw [hseq, h.seq, entriesOf_append, length_append, hlc, c.length_entries, Nat.add_assoc]
  · rw [forall_mem_append]
    exact ⟨h.ops, hlops⟩
  · exact getLast?_concat
  · rw [forall_mem_append]
    refine ⟨fun v hv ↦ ?_, fun v hv ↦ ?_⟩
    · obtain ⟨hle, hv⟩ := h.versions v hv
      rw [take_append_of_le_length hle, length_append]
      exact ⟨hle.trans (Nat.le_add_right _ _), hv⟩
    · rw [mem_singleton.mp hv]
      exact ⟨le_rfl, hnew⟩
  · rw [pairwise_append]
    refine ⟨h.mono, pairwise_singleton _ _, fun v hv w hw ↦ ?_⟩
    rw [mem_singleton.mp hw, length_append]
    exact (h.versions v hv).1.trans (Nat.le_add_right _ _)
  · intro i c hc
    obtain ⟨j, hj⟩ := h.clients hc
    exact ⟨j, hj.append l _⟩

/-- **A commit**, whatever the clock and the wrapped transaction answer. -/
theorem commit
    (htx : s.txs.lookup t = some tx) (now : Except StoreErr ℤ)
    (verdict : Except StoreErr Unit) : Inv codec base (s.commit codec t tx now verdict) := by
  have hwrites := h.writes htx
  unfold System.commit
  rcases tx.commit_cases codec s.store now verdict with ⟨tx', e, hc, hw⟩ | ⟨time, -, rfl, hlen, hc⟩
  · rw [hc]
    exact h.set_tx (by rw [hw]; exact hwrites)
  · rw [hc]
    have hbound := h.bound
    obtain ⟨v, hv⟩ := getLast?_eq_some_iff.mp h.current
    have hlog := (h.versions ⟨s.store.ist, s.commits.length⟩ (by rw [hv]; simp)).2
    rw [take_length] at hlog
    refine (h.record rfl ?_ ?_).set_tx hwrites
    · change s.store.seq + tx.ops.length ≤ maxUint64
      omega
    · have hlen' : base + (entriesOf s.commits).length + (tx.committed time).entries.length
          ≤ maxUint64 := by
        rw [← h.seq, length_entries]
        change s.store.seq + tx.ops.length ≤ maxUint64
        omega
      have hnew := (hlog.writeAll hwrites).append hlen'
      rwa [← h.seq, ← writeAll_append] at hnew

/-- **One `Advance`** of a call that is under way. -/
theorem advance
    (hc : s.clients.lookup i = some c) (hs : s.advance codec i c k = some s') :
    Inv codec base s' := by
  obtain ⟨j, hj⟩ := h.clients hc
  rw [System.advance] at hs
  split at hs
  · next rd v hrd hv =>
    split at hs <;> cases hs
    rename_i hseen
    obtain ⟨n, hn⟩ := hj.reading hrd
    obtain ⟨hle, hlog⟩ := h.versions v (mem_of_getElem? hv)
    have hmono : ∀ w, s.versions[rd.seen]? = some w → w.commits ≤ v.commits := by
      intro w hw
      rcases hseen.lt_or_eq with hlt | heq
      · obtain ⟨hi, rfl⟩ := List.getElem?_eq_some_iff.mp hw
        obtain ⟨hk, rfl⟩ := List.getElem?_eq_some_iff.mp hv
        exact pairwise_iff_getElem.mp h.mono _ _ hi hk hlt
      · rw [heq, hv] at hw
        rw [some.inj hw]
    have hbound : base + (entriesOf s.commits).length ≤ maxUint64 := by
      rw [← h.seq]
      exact h.bound
    rw [hj.next]
    rcases hn.turn h.ops hbound hv hmono hle hlog rfl with
      ⟨hcalled, hturn⟩ | ⟨cm, hcm, ⟨rd', hturn, hrd'⟩ | hturn⟩
    · rw [hturn]
      exact h.set_client (hj.done (fun _ ↦ hcalled) rfl)
    · rw [hturn]
      exact h.set_client (hj.more hrd')
    · rw [hturn]
      have hnext : ((s.commits.drop (j + c.batches.length)).take 1).map entries = [cm.entries] := by
        rw [take_one, head?_drop, hcm]
        rfl
      exact h.set_client (hj.done nofun hnext)
  · cases hs

theorem call
    (hc : s.clients.lookup i = some c) (hs : s.call opts i c = some s') :
    Inv codec base s' := by
  obtain ⟨j, hj⟩ := h.clients hc
  rw [System.call, hj.err] at hs
  rcases hrd : c.reading with _ | rd
  · rw [hrd] at hs
    dsimp only at hs
    split at hs <;> cases hs
    have hcur := h.current
    rw [getLast?_eq_getElem?] at hcur
    have hcall := hj.call hcur le_rfl
    rw [hj.err] at hcall
    exact h.set_client hcall
  · rw [hrd] at hs
    cases hs

/-- **Every step** that clients are allowed to take keeps the invariant. -/
theorem step {a : Action} (ha : a.Allowed opts base s)
    (hs : s.step opts codec a = some s') : Inv codec base s' := by
  rcases a with t | ⟨t, r⟩ | ⟨t, now, verdict⟩ | t | ⟨i, seq⟩ | i | ⟨i, k⟩ <;>
    rw [System.step] at hs
  · split at hs <;> cases hs
    exact h.set_tx (forall_mem_nil _)
  · split at hs
    · cases hs
    · rename_i tx htx
      obtain ⟨tx', hr, rfl⟩ := map_eq_some_iff.mp hs
      refine h.set_tx fun w hw ↦ ?_
      rcases Transaction.mem_writes_of_perform hr hw with hw | hw
      · exact h.writes htx w hw
      · exact ha w hw
  · split at hs
    · cases hs
    · rename_i tx htx
      cases hs
      exact h.commit htx now verdict
  · split at hs
    · cases hs
    · rename_i tx htx
      cases hs
      have hsame : tx.abort.writes = tx.writes := by
        rw [Transaction.abort]
        split <;> rfl
      exact h.set_tx (by rw [hsame]; exact h.writes htx)
  · split at hs <;> cases hs
    obtain ⟨j, hj, rfl⟩ := ha
    exact h.set_client (ClientInv.newClient (Nat.lt_succ_iff.mp (mem_range.mp hj)))
  · split at hs
    · cases hs
    · rename_i c hc
      exact h.call hc hs
  · split at hs
    · cases hs
    · rename_i c hc
      exact h.advance hc hs

end Inv

/-! ## The watch log delivers every commit once and in order -/

/-- **The watch log.** Start from any store whose log is empty. In every state that is reached, the
log lists the entries of the commits under consecutive sequence numbers; a commit has at least one
operation, its entries hold its operations in order, and its last entry alone has `Continued` unset;
a commit that fails changes neither the log nor the next sequence number; and no client has failed,
the batches it was given are the commits from its start on, in order, and it was given no batch only
if there was none when it asked. -/
theorem watch_log_exact [PrefixRange] (opts : Options) (codec : Codec) (st : Store)
    (hbound : st.seq ≤ maxUint64) (hempty : ∀ key, InRange
      (joinKeyParts [logPrefix, []]) logLimit key → AList.lookup key st.ist = none)
    (as : List Action) (s : System)
    (hrun : Transition.run (Transition.guarded (fun s a ↦ a.Allowed opts st.seq s)
      (System.step opts codec)) (System.initial st) as = some s) :
    (s.store.ist.scan (joinKeyParts [logPrefix, []]) logLimit
        = (entriesOf s.commits).mapIdx (fun i e ↦ (logEntryKey (st.seq + i), codec.encode e)) ∧
      s.store.seq = st.seq + (entriesOf s.commits).length) ∧
    (∀ c ∈ s.commits, c.ops ≠ [] ∧ c.entries.map LogEntry.op = c.ops ∧
      ∀ i e, c.entries[i]? = some e → (e.continued = false ↔ i + 1 = c.entries.length)) ∧
    (∀ tx now verdict e, (Transaction.commit codec s.store tx now verdict).2.2 = .error e →
      (Transaction.commit codec s.store tx now verdict).1 = s.store) ∧
    ∀ i c, AList.lookup i s.clients = some c → c.err = none ∧
      ∃ j ≤ s.commits.length, c.start = endSeq st.seq s.commits j ∧
        c.batches = ((s.commits.drop j).take c.batches.length).map Committed.entries ∧
        ∀ before called after, c.outcomes = before ++ (called, none) :: after →
          called ≤ j + (before.filterMap (·.2)).length := by
  have hinv : Inv codec st.seq s := Transition.guarded_invariant
    (fun _ _ _ hu ha hstep ↦ hu.step ha hstep) (Inv.initial hbound hempty) hrun
  refine ⟨⟨?_, hinv.seq⟩, fun c hc ↦ ⟨hinv.ops c hc, ?_, fun i e he ↦ ?_⟩, ?_, fun i c hc ↦ ?_⟩
  · obtain ⟨v, hv⟩ := getLast?_eq_some_iff.mp hinv.current
    have hlog := (hinv.versions ⟨s.store.ist, s.commits.length⟩ (by rw [hv]; simp)).2
    rw [take_length] at hlog
    apply hlog.scan_eq
    rw [← hinv.seq]
    exact hinv.bound
  · exact c.map_op_entries
  · rw [continued_eq_false_iff he, c.length_entries]
  · intro tx now verdict e he
    rcases tx.commit_cases codec s.store now verdict with ⟨tx', e', hc, -⟩ | ⟨t, -, -, -, hc⟩
    · rw [hc]
    · rw [hc] at he
      cases he
  · obtain ⟨j, hj⟩ := hinv.clients hc
    exact ⟨hj.err, j, (Nat.le_add_right _ _).trans hj.le, hj.start, hj.batches,
      fun _ _ _ heq ↦ hj.nils heq⟩

/-- A run in which rows are managed: a transaction puts and deletes a row and commits, another one
fails to commit; a client that had started before reads the batch and then finds nothing more. -/
def oneCommit : List Action :=
  [.newTransaction 0, .newTransaction 1, .request 0 (.put [114] [1] [53]),
    .request 0 (.delete [114]), .request 1 (.get [114]), .watch 0 0, .call 0,
    .commit 0 (.ok 7) (.ok ()), .advance 0 1, .commit 1 (.ok 8) (.error .concurrentTransaction),
    .advance 0 1, .call 0, .advance 0 1]

attribute [local instance] PrefixRange.next

/-- What the client is given in that run. -/
theorem watch_log_exact_one_commit :
    ∃ s c, Transition.run (Transition.guarded (fun s a ↦ a.Allowed ⟨[[114]]⟩ 0 s)
        (System.step ⟨[[114]]⟩ fieldCodec)) (System.initial ⟨∅, 0⟩) oneCommit = some s ∧
      s.store.seq = 2 ∧ AList.lookup 0 s.clients = some c ∧ c.err = none ∧
      c.batches = [[⟨.put [114] [53], 7, false, true⟩, ⟨.delete [114], 7, false, false⟩]] := by
  have hany : (Transition.run (Transition.guarded (fun s a ↦ a.Allowed ⟨[[114]]⟩ 0 s)
      (System.step ⟨[[114]]⟩ fieldCodec)) (System.initial ⟨∅, 0⟩) oneCommit).any
      (fun s ↦ decide (s.store.seq = 2) && (s.clients.lookup 0).any fun c ↦ decide (c.batches
          = [[⟨.put [114] [53], 7, false, true⟩, ⟨.delete [114], 7, false, false⟩]])) = true := by
    decide +kernel
  obtain ⟨s, hrun, hs⟩ := Transition.exists_run_of_any hany
  obtain ⟨hseq, hclient⟩ := Bool.and_eq_true_iff.mp hs
  obtain ⟨c, hc, hbatches⟩ := (Option.any_eq_true _ _).mp hclient
  have hexact := watch_log_exact ⟨[[114]]⟩ fieldCodec ⟨∅, 0⟩ (Nat.zero_le _) (fun _ _ ↦ rfl)
    oneCommit s hrun
  exact ⟨s, c, hrun, of_decide_eq_true hseq, hc, (hexact.2.2.2 0 c hc).1,
    of_decide_eq_true hbatches⟩

end Vanadium.Watchable
