import Vanadium.Foundations.Transition
import Vanadium.Store.MergedStream

/-!
# Store transactions

The transaction manager on top of a store with atomic batch writes and consistent snapshots. A
transaction reads its snapshot under its own writes and remembers what it has read; when it commits,
the manager looks up in a table whether something it read was written since. The table has the
sequence number of the last write of recently written keys. It is filled only while some transaction
is open, and entries that no open transaction can ask for are removed by the garbage collector.

A commit or a direct write is recorded in `history`, with the requests and their results. The
main result is that the history is a serial execution (`committed_serializable`): the results
are those of the same requests carried out one transaction after the other, in the order of the
commits. It holds as long as the keys are short enough for the trie of a transaction's writes and
the sequence number does not wrap around (`Manager.Fits`); `long_key_not_committed` shows what a
longer key does.
-/

namespace Vanadium.Transactions

open Foundations Transition Table Vanadium.Store List Option

/-! ## The table of recent writes -/

/-- `trie`: the last sequence number of recently written keys. -/
abbrev TxTable : Type := Table Bytes ℕ

namespace TxTable

/-- `add`; `none` is the panic on a sequence number that is too small. -/
def add (seq : ℕ) (t : TxTable) (key : Bytes) : Option TxTable :=
  match AList.lookup key t with
  | some oldSeq => if seq < oldSeq then none else some (AList.insert key seq t)
  | none => some (AList.insert key seq t)

/-- `remove`; `none` is the panic on a missing key or an older entry. -/
def remove (seq : ℕ) (t : TxTable) (key : Bytes) : Option TxTable :=
  match AList.lookup key t with
  | none => none
  | some oldSeq =>
    if oldSeq > seq then some t
    else if oldSeq = seq then some (AList.erase key t)
    else none

def get (t : TxTable) (key : Bytes) : ℕ := (AList.lookup key t).getD 0

def rangeMax (t : TxTable) (start limit : Bytes) : ℕ :=
  t.entries.foldl (fun result e ↦ if InRange start limit e.1 ∧ e.2 > result then e.2 else result) 0

/-- `add` for the keys of a batch. -/
def addAll (seq : ℕ) (t : TxTable) (keys : List Bytes) : Option TxTable :=
  Transition.run (add seq) t keys

/-- `remove` for the keys of a batch. -/
def removeAll (seq : ℕ) (t : TxTable) (keys : List Bytes) : Option TxTable :=
  Transition.run (remove seq) t keys

end TxTable

/-! ## Transactions -/

/-- Why a call fails; `writeFailed` is an error of the store below. -/
inductive TxErr where
  | committedTxn
  | abortedTxn
  | concurrentTransaction
  | writeFailed
  deriving DecidableEq

inductive Request where
  | get (key : Bytes)
  | scan (start limit : Bytes)
  | put (key value : Bytes)
  | delete (key : Bytes)
  deriving DecidableEq

/-- What a request returns: the value of a key if it has one, or all pairs of a stream. -/
inductive Result where
  | value (v : Option Bytes)
  | pairs (l : List (Bytes × Bytes))
  | done
  deriving DecidableEq

/-- `transaction`, with the requests that were carried out and their results. -/
structure Tx where
  seq : ℕ
  snapshot : Contents
  readKeys : List Bytes
  readRanges : List (Bytes × Bytes)
  writes : Writes
  err : Option TxErr
  requests : List Request
  results : List Result

/-- `newTransaction` without the entry in the queue of events. -/
def newTx (seq : ℕ) (store : Contents) : Tx := ⟨seq, store, [], [], .nil, none, [], []⟩

namespace Tx

def record (tx : Tx) (r : Request) (result : Result) : Tx :=
  { tx with requests := tx.requests ++ [r], results := tx.results ++ [result] }

/-- `Get`, `Scan`, `Put` and `Delete` of an open transaction; `none` is a panic. A stream is that of
the snapshot and of a copy of the writes, so that it does not matter when it is read. -/
def respond (tx : Tx) : Request → Option Tx
  | .get key =>
    let value :=
      match Ptrie.PNode.get tx.writes key with
      | some v => v
      | none => AList.lookup key tx.snapshot
    some ({ tx with readKeys := tx.readKeys ++ [key] }.record (.get key) (.value value))
  | .scan start limit =>
    (mergeWritesWithStream tx.snapshot tx.writes start limit).map fun m ↦
      { tx with readRanges := tx.readRanges ++ [(start, limit)] }.record (.scan start limit)
        (.pairs m.drain)
  | .put key value =>
    (tx.writes.write (key, some value)).map fun w ↦
      { tx with writes := w }.record (.put key value) .done
  | .delete key =>
    (tx.writes.write (key, none)).map fun w ↦ { tx with writes := w }.record (.delete key) .done

/-- A request to a transaction; one that has ended returns its error. -/
def perform (tx : Tx) (r : Request) : Option Tx := if tx.err.isSome then some tx else tx.respond r

def validateReadSet (tx : Tx) (t : TxTable) : Prop :=
  (∀ key ∈ tx.readKeys, ¬t.get key > tx.seq) ∧
    ∀ r ∈ tx.readRanges, ¬t.rangeMax r.1 r.2 > tx.seq

instance (tx : Tx) (t : TxTable) : Decidable (tx.validateReadSet t) :=
  inferInstanceAs (Decidable ((∀ key ∈ tx.readKeys, ¬t.get key > tx.seq) ∧
    ∀ r ∈ tx.readRanges, ¬t.rangeMax r.1 r.2 > tx.seq))

end Tx

/-! ## The manager -/

/-- An element of `events`: a transaction that has begun, with its sequence number, or a batch that
was committed. -/
inductive Event where
  | begun (t seq : ℕ)
  | committed (seq : ℕ) (batch : List Bytes)
  deriving DecidableEq

/-- `manager` with its store, and all transactions. The history has the committed transactions and
the direct writes in the order of their commits. -/
structure Manager where
  store : Contents
  events : List Event
  seq : ℕ
  txTable : TxTable
  txs : Table ℕ Tx
  history : List (List Request × List Result)

/-- The manager of a store with the given contents. -/
def Manager.wrap (store : Contents) : Manager := ⟨store, [], 0, ∅, ∅, []⟩

namespace Manager

def trackBatch (mg : Manager) (keys : List Bytes) : Option Manager :=
  if mg.events = [] then some mg
  else
    let seq := (mg.seq + 1) % 2 ^ 64
    (TxTable.addAll seq mg.txTable keys).map fun t ↦
      { mg with seq := seq, txTable := t, events := mg.events ++ [.committed seq keys] }

/-- The loop of `gcTransactions`. -/
def gcLoop : List Event → TxTable → Option (List Event × TxTable)
  | [], t => some ([], t)
  | .begun i seq :: events, t => some (.begun i seq :: events, t)
  | .committed seq batch :: events, t =>
    match TxTable.removeAll seq t batch with
    | none => none
    | some t' => gcLoop events t'

def gcTransactions (mg : Manager) : Option Manager :=
  (gcLoop mg.events mg.txTable).map fun r ↦ { mg with events := r.1, txTable := r.2 }

def newTransaction (mg : Manager) (t : ℕ) : Manager :=
  { mg with
    txs := AList.insert t (newTx mg.seq mg.store) mg.txs
    events := mg.events ++ [.begun t mg.seq] }

def removeEvent (mg : Manager) (t : ℕ) : Manager :=
  { mg with events := mg.events.filter fun e ↦ match e with
      | .begun i _ => i ≠ t
      | .committed _ _ => true }

/-- Write a batch to the store and record what has been committed. -/
def writeBatch (mg : Manager) (batch : List Write)
    (unit : List Request × List Result) : Manager :=
  { mg with store := mg.store.writeAll batch, history := mg.history ++ [unit] }

/-- The transaction has ended: later calls return the error. -/
def close (mg : Manager) (t : ℕ) (tx : Tx) (e : TxErr) : Manager :=
  { mg with txs := AList.insert t { tx with err := some e } mg.txs }.removeEvent t

/-- `Commit`, with what it returns. `ok` tells whether the batch can be written. -/
def commit (mg : Manager) (t : ℕ) (tx : Tx) (ok : Bool) : Option (Manager × Except TxErr Unit) :=
  match tx.err with
  | some e => some (mg, .error e)
  | none =>
    let closed := mg.close t tx .committedTxn
    if ¬tx.validateReadSet closed.txTable then some (closed, .error .concurrentTransaction)
    else
      (tx.writes.pairs [] []).bind fun batch ↦
        if ok = false then some (closed, .error .writeFailed)
        else
          ((closed.writeBatch batch (tx.requests, tx.results)).trackBatch
            (batch.map Prod.fst)).map fun mg' ↦ (mg', .ok ())

def abort (mg : Manager) (t : ℕ) (tx : Tx) : Manager :=
  match tx.err with
  | some _ => mg
  | none => mg.close t tx .abortedTxn

/-- `Put` or `Delete` of the manager. -/
def write (mg : Manager) (r : Request) (w : Write) (ok : Bool) : Option Manager :=
  if ok = true then (mg.writeBatch [w] ([r], [.done])).trackBatch [w.1] else some mg

end Manager

inductive Action where
  | newTransaction (t : ℕ)
  | request (t : ℕ) (r : Request)
  | commit (t : ℕ) (ok : Bool)
  | abort (t : ℕ)
  | put (key value : Bytes) (ok : Bool)
  | delete (key : Bytes) (ok : Bool)
  | gc

/-- One call. `none` is a panic, or a call on a transaction that does not exist. -/
def Manager.step (mg : Manager) : Action → Option Manager
  | .newTransaction t => if (AList.lookup t mg.txs).isSome then none else some (mg.newTransaction t)
  | .request t r =>
    (AList.lookup t mg.txs).bind fun tx ↦
      (tx.perform r).map fun tx' ↦ { mg with txs := AList.insert t tx' mg.txs }
  | .commit t ok => (AList.lookup t mg.txs).bind fun tx ↦ (mg.commit t tx ok).map Prod.fst
  | .abort t => (AList.lookup t mg.txs).map fun tx ↦ mg.abort t tx
  | .put key value ok => mg.write (.put key value) (key, some value) ok
  | .delete key ok => mg.write (.delete key) (key, none) ok
  | .gc => mg.gcTransactions

/-- The key, or the start of the range, has a length in bits that fits a `uint32`. -/
def Request.Short : Request → Prop
  | .get key | .put key _ | .delete key => key.length < 2 ^ 29
  | .scan start _ => start.length < 2 ^ 29

instance (r : Request) : Decidable r.Short := by
  cases r <;> exact inferInstanceAs (Decidable (_ < _))

/-- The condition on a call: a request of a transaction is short, and the sequence number does not
wrap around. -/
def Manager.Fits (mg : Manager) : Action → Prop
  | .request _ r => r.Short
  | .commit _ _ | .put _ _ _ | .delete _ _ => mg.seq + 1 < 2 ^ 64
  | .newTransaction _ | .abort _ | .gc => True

instance (mg : Manager) (a : Action) : Decidable (mg.Fits a) := by
  cases a <;> unfold Manager.Fits <;> infer_instance

/-- The call is on a transaction that exists, or makes a new one. -/
def Manager.Exists (mg : Manager) : Action → Prop
  | .newTransaction t => AList.lookup t mg.txs = none
  | .request t _ | .commit t _ | .abort t => (AList.lookup t mg.txs).isSome
  | .put _ _ _ | .delete _ _ | .gc => True

theorem Manager.exists_of_step {mg mg' : Manager} {a : Action} (h : mg.step a = some mg') :
    mg.Exists a := by
  rcases a with t | ⟨t, r⟩ | ⟨t, ok⟩ | t | _ | _ | _ <;> try trivial
  · rw [Manager.step] at h
    split at h
    · cases h
    · next hnone => exact not_isSome_iff_eq_none.mp hnone
  · obtain ⟨tx, htx, -⟩ := bind_eq_some_iff.mp h
    exact isSome_of_eq_some htx
  · obtain ⟨tx, htx, -⟩ := bind_eq_some_iff.mp h
    exact isSome_of_eq_some htx
  · obtain ⟨tx, htx, -⟩ := map_eq_some_iff.mp h
    exact isSome_of_eq_some htx

/-! ## Serial executions -/

/-- Carry out the requests on the store, one after the other: their results and the store they
leave. -/
def exec (c : Contents) : List Request → List Result × Contents
  | [] => ([], c)
  | .get key :: rs => ((.value (AList.lookup key c)) :: (exec c rs).1, (exec c rs).2)
  | .scan start limit :: rs =>
    ((.pairs (Table.scan (InRange start limit) c)) :: (exec c rs).1, (exec c rs).2)
  | .put key value :: rs =>
    (.done :: (exec (c.write (key, some value)) rs).1, (exec (c.write (key, some value)) rs).2)
  | .delete key :: rs =>
    (.done :: (exec (c.write (key, none)) rs).1, (exec (c.write (key, none)) rs).2)

/-- The history is the serial execution of its requests from the contents `c`, and it leaves the
contents `c'`. -/
def Serializes (c : Contents) : List (List Request × List Result) → Contents → Prop
  | [], c' => ∀ key, AList.lookup key c = AList.lookup key c'
  | (requests, results) :: history, c' =>
    (exec c requests).1 = results ∧ Serializes (exec c requests).2 history c'

/-! ### What the results of an execution depend on -/

/-- The writes of a sequence of requests. -/
def writesOf (rs : List Request) : List Write :=
  rs.filterMap fun r ↦ match r with
    | .put key value => some (key, some value)
    | .delete key => some (key, none)
    | .get _ | .scan _ _ => none

/-- The key is read by one of the requests. -/
def Reads (rs : List Request) (key : Bytes) : Prop :=
  ∃ r ∈ rs, r = .get key ∨ ∃ start limit, r = .scan start limit ∧ InRange start limit key

variable {rs requests : List Request} {tx : Tx} {key : Bytes} {w : Write}
  {results : List Result} {c c' : Contents}

theorem Reads.cons (h : Reads rs key) (r : Request) :
    Reads (r :: rs) key := by
  obtain ⟨r', hr', hread⟩ := h
  exact ⟨r', mem_cons_of_mem _ hr', hread⟩

theorem lookup_write_congr
    (h : c.lookup key = c'.lookup key) :
    (c.write w).lookup key = (c'.write w).lookup key := by
  rw [lookup_write, lookup_write, h]

theorem scan_congr {start limit : Bytes}
    (h : ∀ key, InRange start limit key → c.lookup key = c'.lookup key) :
    scan (InRange start limit) c = scan (InRange start limit) c' := by
  refine eq_scan_iff.mpr ⟨pairwise_scan, fun k v ↦ ?_⟩
  rw [mem_scan]
  exact and_congr_right fun hk ↦ by rw [h k hk]

/-- **Frame.** The results depend only on the keys that are read. -/
theorem exec_results_congr
    (h : ∀ key, Reads rs key → c.lookup key = c'.lookup key) : (exec c rs).1 = (exec c' rs).1 := by
  induction rs generalizing c c' with
  | nil => rfl
  | cons r rs ih =>
    have hrest : ∀ key, Reads rs key → c.lookup key = c'.lookup key := fun key hkey ↦
      h key (hkey.cons r)
    rcases r with key | ⟨start, limit⟩ | ⟨key, value⟩ | key
    · rw [exec, exec, ih hrest, h key ⟨_, mem_cons_self, Or.inl rfl⟩]
    · have hscan := scan_congr fun key hkey ↦
        h key ⟨_, mem_cons_self, Or.inr ⟨start, limit, rfl, hkey⟩⟩
      rw [exec, exec, ih hrest, hscan]
    · rw [exec, exec, ih fun k hk ↦ lookup_write_congr (hrest k hk)]
    · rw [exec, exec, ih fun k hk ↦ lookup_write_congr (hrest k hk)]

theorem exec_append (c : Contents) (rs rs' : List Request) :
    exec c (rs ++ rs')
      = ((exec c rs).1 ++ (exec (exec c rs).2 rs').1, (exec (exec c rs).2 rs').2) := by
  induction rs generalizing c with
  | nil => rfl
  | cons r rs ih =>
    rcases r with key | ⟨start, limit⟩ | ⟨key, value⟩ | key <;> simp only [cons_append, exec, ih]

theorem exec_store (c : Contents) (rs : List Request) :
    (exec c rs).2 = c.writeAll (writesOf rs) := by
  induction rs generalizing c with
  | nil => rfl
  | cons r rs ih => rcases r with _ | _ | _ | _ <;> exact ih _

theorem exec_store_congr
    (h : ∀ key, c.lookup key = c'.lookup key) (key : Bytes) :
    AList.lookup key (exec c rs).2 = AList.lookup key (exec c' rs).2 := by
  rw [exec_store, exec_store, Writes.lookup_writeAll, Writes.lookup_writeAll, h]

theorem Serializes.concat {history : List (List Request × List Result)}
    {c'' : Contents} (h : Serializes c history c')
    (hres : (exec c' requests).1 = results)
    (hstore : ∀ key, AList.lookup key (exec c' requests).2 = c''.lookup key) :
    Serializes c (history ++ [(requests, results)]) c'' := by
  induction history generalizing c with
  | nil =>
    refine ⟨?_, fun key ↦ ?_⟩
    · rw [exec_results_congr fun key _ ↦ h key]
      exact hres
    · rw [exec_store_congr h]
      exact hstore key
  | cons unit history ih =>
    obtain ⟨hunit, hrest⟩ := h
    exact ⟨hunit, ih hrest⟩

/-! ## One transaction -/

/-- What a transaction remembers of its requests: the writes, the results as they are on the
snapshot, and the keys and ranges that were read. -/
structure TxInv (tx : Tx) : Prop where
  writes : tx.writes.Holds (writesOf tx.requests)
  results : tx.results = (exec tx.snapshot tx.requests).1
  keys : ∀ {key}, .get key ∈ tx.requests → key ∈ tx.readKeys
  ranges : ∀ {start limit}, .scan start limit ∈ tx.requests → (start, limit) ∈ tx.readRanges

theorem TxInv.newTx (seq : ℕ) (c : Contents) : TxInv (newTx seq c) where
  writes := Writes.holds_nil
  results := rfl
  keys h := absurd h not_mem_nil
  ranges h := absurd h not_mem_nil

/-- One more request is recorded, and what it has read. -/
theorem TxInv.record (h : TxInv tx) {r : Request} {result : Result} {writes : Writes}
    {readKeys : List Bytes} {readRanges : List (Bytes × Bytes)}
    (hwrites : writes.Holds (writesOf (tx.requests ++ [r])))
    (hresult : [result] = (exec (tx.snapshot.writeAll (writesOf tx.requests)) [r]).1)
    (hkeys : tx.readKeys ⊆ readKeys ∧ ∀ key, r = .get key → key ∈ readKeys)
    (hranges : tx.readRanges ⊆ readRanges ∧
      ∀ start limit, r = .scan start limit → (start, limit) ∈ readRanges) :
    TxInv ({ tx with writes, readKeys, readRanges }.record r result) where
  writes := hwrites
  results := by
    change tx.results ++ [result] = _
    rw [h.results, hresult, ← exec_store, Tx.record, exec_append]
  keys hmem := by
    rcases mem_append.mp hmem with hold | hnew
    · exact hkeys.1 (h.keys hold)
    · exact hkeys.2 _ (mem_singleton.mp hnew).symm
  ranges hmem := by
    rcases mem_append.mp hmem with hold | hnew
    · exact hranges.1 (h.ranges hold)
    · exact hranges.2 _ _ (mem_singleton.mp hnew).symm

/-- **A request** to an open transaction. -/
theorem TxInv.respond (h : TxInv tx) {r : Request} (hr : r.Short) :
    ∃ tx', tx.respond r = some tx' ∧ TxInv tx' ∧ tx'.seq = tx.seq ∧ tx'.snapshot = tx.snapshot := by
  have hrest : ∀ op, writesOf [r] = op →
    writesOf (tx.requests ++ [r]) = writesOf tx.requests ++ op :=
    fun op hop ↦ by rw [writesOf, filterMap_append, ← hop]; rfl
  rcases r with key | ⟨start, limit⟩ | ⟨key, value⟩ | key
  · refine ⟨_, rfl, h.record ?_ ?_ ⟨subset_append_left _ _, ?_⟩ ⟨Subset.refl _,
      fun _ _ h ↦ by cases h⟩, rfl, rfl⟩
    · rw [hrest [] rfl, append_nil]
      exact h.writes
    · rw [exec, exec, Writes.lookup_writeAll, h.writes.get_eq hr]
      rcases (Writes.last (writesOf tx.requests)).lookup key <;> rfl
    · rintro _ ⟨⟩
      exact mem_append_right _ (mem_singleton.mpr rfl)
  · obtain ⟨m, hm, hcollect⟩ := collect_merge h.writes tx.snapshot hr limit
    refine ⟨_, by rw [Tx.respond, hm]; rfl, h.record ?_ ?_ ⟨Subset.refl _, fun _ h ↦ by cases h⟩
      ⟨subset_append_left _ _, ?_⟩, rfl, rfl⟩
    · rw [hrest [] rfl, append_nil]
      exact h.writes
    · rw [exec, exec, ← hcollect 0]
      rfl
    · rintro _ _ ⟨⟩
      exact mem_append_right _ (mem_singleton.mpr rfl)
  · obtain ⟨w, hw, hholds⟩ := h.writes.write (key, some value) hr
    refine ⟨_, by rw [Tx.respond, hw]; rfl, h.record ?_ rfl ⟨Subset.refl _, fun _ h ↦ by cases h⟩
      ⟨Subset.refl _, fun _ _ h ↦ by cases h⟩, rfl, rfl⟩
    rw [hrest _ rfl]
    exact hholds
  · obtain ⟨w, hw, hholds⟩ := h.writes.write (key, none) hr
    refine ⟨_, by rw [Tx.respond, hw]; rfl, h.record ?_ rfl ⟨Subset.refl _, fun _ h ↦ by cases h⟩
      ⟨Subset.refl _, fun _ _ h ↦ by cases h⟩, rfl, rfl⟩
    rw [hrest _ rfl]
    exact hholds

/-! ## The table -/

variable {keys : List Bytes}

namespace TxTable

theorem le_rangeMax {t : TxTable} {start limit : Bytes} {q : ℕ}
    (hkey : InRange start limit key) (hq : t.lookup key = some q) :
    q ≤ t.rangeMax start limit := by
  -- the running maximum only grows, and it is at least every entry of the range that was passed
  have hfold {f : ℕ → (Sigma fun _ : Bytes ↦ ℕ) → ℕ}
      (hf : ∀ m e, m ≤ f m e ∧ (InRange start limit e.1 → e.2 ≤ f m e))
      (l : List (Sigma fun _ : Bytes ↦ ℕ)) (m : ℕ) :
      m ≤ l.foldl f m ∧ ∀ e ∈ l, InRange start limit e.1 → e.2 ≤ l.foldl f m := by
    induction l generalizing m with
    | nil => exact ⟨le_rfl, forall_mem_nil _⟩
    | cons a l ih =>
      obtain ⟨hm, hl⟩ := ih (f m a)
      obtain ⟨hmono, ha⟩ := hf m a
      exact ⟨hmono.trans hm, forall_mem_cons.mpr ⟨fun hin ↦ (ha hin).trans hm, hl⟩⟩
  refine (hfold (fun m e ↦ ?_) t.entries 0).2 ⟨key, q⟩ (mem_entries_iff.mpr hq) hkey
  split
  · next h => exact ⟨h.2.le, fun _ ↦ le_rfl⟩
  · next h => exact ⟨le_rfl, fun hin ↦ not_lt.mp fun hlt ↦ h ⟨hin, hlt⟩⟩

variable {seq : ℕ}

theorem addAll_eq {t : TxTable}
    (hle : ∀ {key q}, t.lookup key = some q → q ≤ seq) :
    addAll seq t keys = some (keys.foldl (fun t k ↦ t.insert k seq) t) := by
  induction keys generalizing t with
  | nil => rfl
  | cons k keys ih =>
    have hadd : add seq t k = some (t.insert k seq) := by
      rw [add]
      rcases hk : t.lookup k with _ | old
      · rfl
      · exact if_neg (not_lt.mpr (hle hk))
    have hle' : ∀ {key q}, (t.insert k seq).lookup key = some q → q ≤ seq := by
      intro key q hq
      rw [lookup_insert_eq_ite] at hq
      split at hq
      · exact (some.inj hq).ge
      · exact hle hq
    exact run_cons_eq_some_iff.mpr ⟨_, hadd, ih hle'⟩

theorem addAll_spec {t : TxTable}
    (hle : ∀ {key q}, t.lookup key = some q → q ≤ seq) :
    ∃ t', addAll seq t keys = some t' ∧
      ∀ key, t'.lookup key = if key ∈ keys then some seq else t.lookup key := by
  refine ⟨_, addAll_eq hle, fun key ↦ ?_⟩
  rw [lookup_foldl_insert]
  congr

theorem removeAll_spec {t : TxTable} (hnodup : keys.Nodup)
    (hkeys : ∀ key ∈ keys, ∃ q, t.lookup key = some q ∧ seq ≤ q) :
    ∃ t', removeAll seq t keys = some t' ∧
      ∀ key, t'.lookup key
        = if key ∈ keys ∧ t.lookup key = some seq then none else t.lookup key := by
  induction keys generalizing t with
  | nil => exact ⟨t, rfl, fun key ↦ (if_neg fun h ↦ absurd h.1 not_mem_nil).symm⟩
  | cons k keys ih =>
    obtain ⟨hk, hnodup⟩ := nodup_cons.mp hnodup
    obtain ⟨q, hq, hle⟩ := hkeys k mem_cons_self
    -- the entry goes if it is still the one of this batch
    obtain ⟨t₁, hremove, ht₁⟩ : ∃ t₁, remove seq t k = some t₁ ∧ ∀ key, t₁.lookup key
        = if key = k ∧ q = seq then none else t.lookup key := by
      rw [remove, hq]
      dsimp only
      rcases hle.lt_or_eq with hlt | rfl
      · rw [if_pos hlt]
        exact ⟨t, rfl, fun key ↦ (if_neg fun h ↦ hlt.ne' h.2).symm⟩
      · rw [if_neg (lt_irrefl _), if_pos rfl]
        refine ⟨_, rfl, fun key ↦ ?_⟩
        rw [lookup_erase_eq_ite]
        simp only [and_true]
    have hkeys' : ∀ key ∈ keys, ∃ q, t₁.lookup key = some q ∧ seq ≤ q := by
      intro key hkey
      obtain ⟨q', hq', hle'⟩ := hkeys key (mem_cons_of_mem _ hkey)
      have hne : key ≠ k := by
        rintro rfl
        exact hk hkey
      refine ⟨q', ?_, hle'⟩
      rw [ht₁, if_neg fun h ↦ hne h.1]
      exact hq'
    obtain ⟨t', ht', hlookup⟩ := ih hnodup hkeys'
    refine ⟨t', run_cons_eq_some_iff.mpr ⟨t₁, hremove, ht'⟩, fun key ↦ ?_⟩
    rw [hlookup, ht₁]
    by_cases heq : key = k
    · subst heq
      rw [if_neg fun h ↦ hk h.1, hq]
      simp
    · simp [heq]

end TxTable

/-! ## The queue of events -/

/-- Sequence numbers grow along the queue. -/
def Event.Before : Event → Event → Prop
  | .committed q _, .committed q' _ => q < q'
  | .committed q _, .begun _ q' => q ≤ q'
  | .begun _ _, _ => True

/-- The queue and the table: every key of a batch in the queue is in the table with the sequence
number of that batch or of a later one. -/
structure QueueInv (events : List Event) (seq : ℕ) (t : TxTable) : Prop where
  table : ∀ {key q}, AList.lookup key t = some q → q ≤ seq
  batch : ∀ {q keys}, .committed q keys ∈ events → q ≤ seq ∧ keys.Nodup ∧
    ∀ key ∈ keys, ∃ q', AList.lookup key t = some q' ∧ q ≤ q'
  begun : ∀ {i q}, .begun i q ∈ events → q ≤ seq
  sorted : events.Pairwise Event.Before

namespace QueueInv

variable {events : List Event} {seq : ℕ} {t : TxTable}

theorem filter (h : QueueInv events seq t) (p : Event → Bool) :
    QueueInv (events.filter p) seq t where
  table := h.table
  batch hmem := h.batch (mem_of_mem_filter hmem)
  begun hmem := h.begun (mem_of_mem_filter hmem)
  sorted := h.sorted.filter p

theorem begin (h : QueueInv events seq t) (i : ℕ) :
    QueueInv (events ++ [.begun i seq]) seq t where
  table := h.table
  batch hmem := by
    rcases mem_append.mp hmem with hmem | hmem
    · exact h.batch hmem
    · cases mem_singleton.mp hmem
  begun hmem := by
    rcases mem_append.mp hmem with hmem | hmem
    · exact h.begun hmem
    · cases mem_singleton.mp hmem
      exact le_rfl
  sorted := by
    refine pairwise_append.mpr ⟨h.sorted, pairwise_singleton _ _, fun e he e' he' ↦ ?_⟩
    rw [mem_singleton.mp he']
    rcases e with _ | ⟨q, keys⟩
    · trivial
    · exact (h.batch he).1

theorem track (h : QueueInv events seq t) (hkeys : keys.Nodup) {t' : TxTable}
    (ht' : ∀ key, t'.lookup key
      = if key ∈ keys then some (seq + 1) else t.lookup key) :
    QueueInv (events ++ [.committed (seq + 1) keys]) (seq + 1) t' where
  table {key q} hq := by
    rw [ht'] at hq
    split at hq
    · exact (some.inj hq).ge
    · exact (h.table hq).trans (Nat.le_succ _)
  batch {q ks} hmem := by
    rcases mem_append.mp hmem with hmem | hmem
    · obtain ⟨hq, hnodup, hks⟩ := h.batch hmem
      refine ⟨hq.trans (Nat.le_succ _), hnodup, fun key hkey ↦ ?_⟩
      rw [ht']
      split
      · exact ⟨seq + 1, rfl, hq.trans (Nat.le_succ _)⟩
      · exact hks key hkey
    · cases mem_singleton.mp hmem
      refine ⟨le_rfl, hkeys, fun key hkey ↦ ⟨seq + 1, ?_, le_rfl⟩⟩
      rw [ht', if_pos hkey]
  begun hmem := by
    rcases mem_append.mp hmem with hmem | hmem
    · exact (h.begun hmem).trans (Nat.le_succ _)
    · cases mem_singleton.mp hmem
  sorted := by
    refine pairwise_append.mpr ⟨h.sorted, pairwise_singleton _ _, fun e he e' he' ↦ ?_⟩
    rw [mem_singleton.mp he']
    rcases e with _ | ⟨q, ks⟩
    · trivial
    · exact Nat.lt_succ_iff.mpr (h.batch he).1

/-- **The garbage collector** does not panic. It keeps the transactions in the queue, and for each
of them every entry of the table that is newer than the transaction. -/
theorem gcLoop_spec {events : List Event} {t : TxTable} (h : QueueInv events seq t) :
    ∃ events' t', Manager.gcLoop events t = some (events', t') ∧ QueueInv events' seq t' ∧
      ∀ {i q}, .begun i q ∈ events → .begun i q ∈ events' ∧
        ∀ {key q'}, t.lookup key = some q' → q < q' → t'.lookup key = some q' := by
  induction events generalizing t with
  | nil => exact ⟨[], t, rfl, h, fun hmem ↦ absurd hmem not_mem_nil⟩
  | cons e events ih =>
    rcases e with ⟨i, q⟩ | ⟨q, keys⟩
    · exact ⟨_, t, rfl, h, fun hmem ↦ ⟨hmem, fun hq _ ↦ hq⟩⟩
    · obtain ⟨-, hnodup, hkeys⟩ := h.batch mem_cons_self
      obtain ⟨hbefore, hsorted⟩ := pairwise_cons.mp h.sorted
      obtain ⟨t₁, hremove, ht₁⟩ := TxTable.removeAll_spec hnodup hkeys
      -- an entry with another sequence number than this batch stays
      have hkeep : ∀ {key q'}, t.lookup key = some q' → q' ≠ q → t₁.lookup key = some q' := by
        intro key q' hq' hne
        rw [ht₁, hq', if_neg fun hboth ↦ hne (some.inj hboth.2)]
      have hrest : QueueInv events seq t₁ := by
        refine ⟨fun {key q'} hq' ↦ ?_, fun {q' keys'} hmem ↦ ?_, fun hmem ↦ ?_, hsorted⟩
        · rw [ht₁] at hq'
          split at hq'
          · cases hq'
          · exact h.table hq'
        · obtain ⟨hle, hnodup', hkeys'⟩ := h.batch (mem_cons_of_mem _ hmem)
          refine ⟨hle, hnodup', fun key hkey ↦ ?_⟩
          obtain ⟨q'', hq'', hle''⟩ := hkeys' key hkey
          have hlt : q < q' := hbefore _ hmem
          exact ⟨q'', hkeep hq'' (by omega), hle''⟩
        · exact h.begun (mem_cons_of_mem _ hmem)
      obtain ⟨events', t', hloop, hinv, hopen⟩ := ih hrest
      refine ⟨events', t', ?_, hinv, fun {i qi} hmem ↦ ?_⟩
      · rw [Manager.gcLoop, hremove]
        exact hloop
      · rcases mem_cons.mp hmem with heq | hmem
        · cases heq
        · obtain ⟨hmem', hnewer⟩ := hopen hmem
          refine ⟨hmem', fun {key q'} hq' hlt ↦ hnewer (hkeep hq' ?_) hlt⟩
          have hle : q ≤ qi := hbefore _ hmem
          omega

end QueueInv

/-! ## The invariant -/

/-- An open transaction: whatever was written since it began is in the table with a newer sequence
number than its own. -/
structure OpenInv (store : Contents) (events : List Event) (table : TxTable) (t : ℕ) (tx : Tx) :
    Prop where
  inv : TxInv tx
  event : .begun t tx.seq ∈ events
  newer : ∀ key, AList.lookup key store = AList.lookup key tx.snapshot ∨
    ∃ q, AList.lookup key table = some q ∧ tx.seq < q

/-- **Validation.** If it succeeds, the store still has what the transaction has read. -/
theorem OpenInv.lookup_of_reads {store : Contents} {events : List Event} {table : TxTable} {t : ℕ}
    (h : OpenInv store events table t tx) (hvalid : tx.validateReadSet table)
    (hread : Reads tx.requests key) : store.lookup key = tx.snapshot.lookup key := by
  rcases h.newer key with heq | ⟨q, hq, hlt⟩
  · exact heq
  · exfalso
    obtain ⟨r, hr, rfl | ⟨start, limit, rfl, hin⟩⟩ := hread
    · apply hvalid.1 key (h.inv.keys hr)
      rw [TxTable.get, hq]
      exact hlt
    · exact hvalid.2 _ (h.inv.ranges hr) (hlt.trans_le (TxTable.le_rangeMax hin hq))

theorem Manager.trackBatch_eq {mg : Manager} {t : TxTable} (hne : mg.events ≠ [])
    (hseq : mg.seq + 1 < 2 ^ 64) (hadd : TxTable.addAll (mg.seq + 1) mg.txTable keys = some t) :
    mg.trackBatch keys = some { mg with
      seq := mg.seq + 1, txTable := t, events := mg.events ++ [.committed (mg.seq + 1) keys] } := by
  rw [Manager.trackBatch, if_neg hne, Nat.mod_eq_of_lt hseq]
  dsimp only
  rw [hadd]
  rfl

structure Inv (initial : Contents) (mg : Manager) : Prop where
  serial : Serializes initial mg.history mg.store
  queue : QueueInv mg.events mg.seq mg.txTable
  txs : ∀ {t tx}, AList.lookup t mg.txs = some tx → tx.err = none →
    OpenInv mg.store mg.events mg.txTable t tx

namespace Inv

variable {initial : Contents} {mg : Manager}

theorem wrap (initial : Contents) : Inv initial (Manager.wrap initial) where
  serial _ := rfl
  queue := ⟨fun h ↦ by simp [Manager.wrap] at h, fun h ↦ absurd h not_mem_nil,
    fun h ↦ absurd h not_mem_nil, List.Pairwise.nil⟩
  txs h := by simp [Manager.wrap] at h

variable (h : Inv initial mg)
include h

theorem newTransaction {t : ℕ} : Inv initial (mg.newTransaction t) where
  serial := h.serial
  queue := h.queue.begin t
  txs {t' tx} hlookup herr := by
    rw [Manager.newTransaction, lookup_insert_eq_ite] at hlookup
    split at hlookup
    · rename_i heq
      cases hlookup
      rw [heq]
      exact ⟨TxInv.newTx _ _, mem_append_right _ (mem_singleton.mpr rfl), fun _ ↦ Or.inl rfl⟩
    · have hopen := h.txs hlookup herr
      exact ⟨hopen.inv, mem_append_left _ hopen.event, hopen.newer⟩

theorem request {t : ℕ} (htx : mg.txs.lookup t = some tx) {r : Request} (hr : r.Short) :
    ∃ tx', tx.perform r = some tx' ∧ Inv initial { mg with txs := mg.txs.insert t tx' } := by
  -- it is enough that the transaction is as before or open
  have hkeep : ∀ {tx' : Tx}, (tx'.err = none → OpenInv mg.store mg.events mg.txTable t tx') →
      Inv initial { mg with txs := mg.txs.insert t tx' } := by
    refine fun hopen ↦ ⟨h.serial, h.queue, fun {t' tx'} hlookup herr ↦ ?_⟩
    rw [lookup_insert_eq_ite] at hlookup
    split at hlookup
    · next heq =>
      cases hlookup
      rw [heq]
      exact hopen herr
    · exact h.txs hlookup herr
  by_cases hended : tx.err.isSome = true
  · exact ⟨tx, if_pos hended, hkeep (h.txs htx)⟩
  · have hopen := h.txs htx (not_isSome_iff_eq_none.mp hended)
    obtain ⟨tx', hrespond, hinv, hseq, hsnap⟩ := hopen.inv.respond hr
    refine ⟨tx', (if_neg hended).trans hrespond, hkeep fun _ ↦ ⟨hinv, ?_, ?_⟩⟩
    · rw [hseq]
      exact hopen.event
    · rw [hsnap, hseq]
      exact hopen.newer

theorem close (t : ℕ) (tx : Tx) (e : TxErr) :
    Inv initial (mg.close t tx e) where
  serial := h.serial
  queue := h.queue.filter _
  txs {t' tx'} hlookup herr := by
    rw [Manager.close, Manager.removeEvent, lookup_insert_eq_ite] at hlookup
    split at hlookup
    · cases hlookup
      cases herr
    · rename_i hne
      have hopen := h.txs hlookup herr
      refine ⟨hopen.inv, mem_filter.mpr ⟨hopen.event, ?_⟩, hopen.newer⟩
      simpa using hne

/-- **A batch is written.** It is tracked unless no transaction is open. -/
theorem writeBatch {batch : List Write} (hseq : mg.seq + 1 < 2 ^ 64)
    (hbatch : batch.Pairwise fun w w' ↦ w.1 ≠ w'.1)
    (hresults : (exec mg.store requests).1 = results)
    (hstore : ∀ key, AList.lookup key (exec mg.store requests).2
      = (mg.store.writeAll batch).lookup key) :
    ∃ mg', (mg.writeBatch batch (requests, results)).trackBatch (batch.map Prod.fst) = some mg' ∧
      Inv initial mg' := by
  have hserial : Serializes initial (mg.history ++ [(requests, results)])
      (mg.store.writeAll batch) := h.serial.concat hresults hstore
  by_cases hempty : mg.events = []
  · refine ⟨_, if_pos hempty, hserial, h.queue, fun {t tx} hlookup herr ↦ ?_⟩
    have hevent := (h.txs hlookup herr).event
    rw [hempty] at hevent
    exact absurd hevent not_mem_nil
  · have hnodup : (batch.map Prod.fst).Nodup := pairwise_map.mpr hbatch
    have hle : ∀ {key q}, mg.txTable.lookup key = some q → q ≤ mg.seq + 1 := fun hq ↦
      (h.queue.table hq).trans (Nat.le_succ _)
    obtain ⟨t', hadd, ht'⟩ := TxTable.addAll_spec hle
    refine ⟨_, Manager.trackBatch_eq hempty hseq hadd, hserial, h.queue.track hnodup ht',
      fun {t tx} hlookup herr ↦ ?_⟩
    have hopen := h.txs hlookup herr
    refine ⟨hopen.inv, mem_append_left _ hopen.event, fun key ↦ ?_⟩
    change AList.lookup key (mg.store.writeAll batch) = _ ∨ ∃ q, AList.lookup key t' = _ ∧ _
    rw [ht']
    by_cases hkey : key ∈ batch.map Prod.fst
    · exact Or.inr ⟨mg.seq + 1, if_pos hkey, Nat.lt_succ_iff.mpr (h.queue.begun hopen.event)⟩
    · rw [if_neg hkey, lookup_writeAll_of_notMem fun w hw heq ↦ hkey (mem_map.mpr ⟨w, hw, heq⟩)]
      exact hopen.newer key

/-- **A commit.** It does not panic, and a transaction that passes validation gave the results that
it would give on the store as it is now. -/
theorem commit (hseq : mg.seq + 1 < 2 ^ 64) {t : ℕ} (htx : mg.txs.lookup t = some tx)
    (ok : Bool) : ∃ r, mg.commit t tx ok = some r ∧ Inv initial r.1 := by
  unfold Manager.commit
  rcases herr : tx.err with _ | e
  · have hopen := h.txs htx herr
    have hclosed := h.close t tx .committedTxn
    by_cases hvalid : tx.validateReadSet (mg.close t tx .committedTxn).txTable
    · have hpairs : tx.writes.pairs [] [] = _ := hopen.inv.writes.pairs_eq
        (show ([] : Bytes).length < 2 ^ 29 from Nat.two_pow_pos 29) []
      rw [if_neg (not_not.mpr hvalid), hpairs]
      rcases ok with _ | _
      · exact ⟨_, rfl, hclosed⟩
      · have hresults : (exec (mg.close t tx .committedTxn).store tx.requests).1 = tx.results := by
          rw [hopen.inv.results]
          exact exec_results_congr fun key hkey ↦ hopen.lookup_of_reads hvalid hkey
        obtain ⟨mg', htrack, hinv⟩ := hclosed.writeBatch hseq (pairwise_scan.imp fun hlt ↦ hlt.ne)
          hresults fun key ↦ by rw [exec_store, Writes.lookup_writeAll_scan]
        exact ⟨_, by rw [bind_some, if_neg Bool.noConfusion, htrack]; rfl, hinv⟩
    · rw [if_pos hvalid]
      exact ⟨_, rfl, hclosed⟩
  · exact ⟨_, rfl, h⟩

/-- **A direct write.** -/
theorem write (hseq : mg.seq + 1 < 2 ^ 64) {r : Request}
    (hr : ∀ c : Contents, exec c [r] = ([.done], c.write w)) (ok : Bool) :
    ∃ mg', mg.write r w ok = some mg' ∧ Inv initial mg' := by
  rw [Manager.write]
  rcases ok with _ | _
  · exact ⟨mg, rfl, h⟩
  · rw [if_pos rfl]
    apply h.writeBatch hseq (pairwise_singleton _ _)
    · rw [hr]
    · intro key
      rw [hr]
      rfl

theorem gcTransactions : ∃ mg', mg.gcTransactions = some mg' ∧ Inv initial mg' := by
  obtain ⟨events', t', hloop, hqueue, hopen⟩ := h.queue.gcLoop_spec
  refine ⟨{ mg with events := events', txTable := t' }, ?_, h.serial, hqueue,
    fun {t tx} hlookup herr ↦ ?_⟩
  · rw [Manager.gcTransactions, hloop]
    rfl
  have htx := h.txs hlookup herr
  obtain ⟨hevent, hnewer⟩ := hopen htx.event
  refine ⟨htx.inv, hevent, fun key ↦ ?_⟩
  rcases htx.newer key with heq | ⟨q, hq, hlt⟩
  · exact Or.inl heq
  · exact Or.inr ⟨q, hnewer hq hlt, hlt⟩

/-- **Every call** that fits returns, and keeps the invariant. -/
theorem step {a : Action} (hfits : mg.Fits a) (hexists : mg.Exists a) :
    ∃ mg', mg.step a = some mg' ∧ Inv initial mg' := by
  rcases a with t | ⟨t, r⟩ | ⟨t, ok⟩ | t | ⟨key, value, ok⟩ | ⟨key, ok⟩ | _
  · exact ⟨_, if_neg (by rw [show mg.txs.lookup t = none from hexists]; exact Bool.noConfusion),
      h.newTransaction⟩
  · obtain ⟨tx, htx⟩ := isSome_iff_exists.mp hexists
    obtain ⟨tx', hperform, hinv⟩ := h.request htx hfits
    exact ⟨_, by rw [Manager.step, htx, bind_some, hperform]; rfl, hinv⟩
  · obtain ⟨tx, htx⟩ := isSome_iff_exists.mp hexists
    obtain ⟨r, hr, hinv⟩ := h.commit hfits htx ok
    exact ⟨r.1, by rw [Manager.step, htx, bind_some, hr]; rfl, hinv⟩
  · obtain ⟨tx, htx⟩ := isSome_iff_exists.mp hexists
    refine ⟨_, by rw [Manager.step, htx]; rfl, ?_⟩
    change Inv initial (mg.abort t tx)
    rw [Manager.abort]
    rcases tx.err with _ | e
    · exact h.close t tx .abortedTxn
    · exact h
  · exact h.write hfits (fun _ ↦ rfl) ok
  · exact h.write hfits (fun _ ↦ rfl) ok
  · exact h.gcTransactions

end Inv

/-! ## Serializability -/

/-- **Committed transactions are serializable.** For any contents of the store and any interleaving
of calls that fit, the committed transactions and direct writes, carried out one after the other in
the order of their commits, return the results that were returned and leave the contents that the
store has; and no call that fits panics. -/
theorem committed_serializable (initial : Contents) (as : List Action) (mg : Manager)
    (hrun : Transition.run (guarded Manager.Fits Manager.step)
      (Manager.wrap initial) as = some mg) :
    Serializes initial mg.history mg.store ∧
      ∀ a, mg.Fits a → mg.Exists a → (mg.step a).isSome := by
  have hinv : Inv initial mg := by
    refine guarded_invariant (fun mg a mg' hmg hfits hstep ↦ ?_)
      (Inv.wrap initial) hrun
    obtain ⟨mg₁, hstep₁, hinv⟩ := hmg.step hfits (Manager.exists_of_step hstep)
    rw [hstep] at hstep₁
    cases hstep₁
    exact hinv
  refine ⟨hinv.serial, fun a hfits hexists ↦ ?_⟩
  obtain ⟨mg', hstep, -⟩ := hinv.step hfits hexists
  exact isSome_of_eq_some hstep

/-- A run with two transactions: both read the key that the first one writes, and the second one is
refused; a direct write and a collection stand between them. -/
def twoTransactions : List Action :=
  [.newTransaction 0, .newTransaction 1, .request 0 (.get [1]), .request 0 (.put [1] [7]),
    .request 1 (.scan [] []), .request 1 (.put [2] [8]), .commit 0 true, .gc, .delete [3] true,
    .commit 1 true, .gc]

/-- In that run the first transaction and the direct write are the history. -/
theorem committed_serializable_two_transactions :
    ∃ mg, Transition.run (guarded Manager.Fits Manager.step)
        (Manager.wrap (AList.insert [3] [9] ∅)) twoTransactions = some mg ∧
      mg.history = [([.get [1], .put [1] [7]], [.value none, .done]), ([.delete [3]], [.done])] ∧
      Serializes (AList.insert [3] [9] ∅) mg.history mg.store := by
  have hany : (Transition.run (guarded Manager.Fits Manager.step)
      (Manager.wrap (AList.insert [3] [9] ∅)) twoTransactions).any (fun mg ↦ decide (mg.history
        = [([.get [1], .put [1] [7]], [.value none, .done]), ([.delete [3]], [.done])])) =
          true := by
    decide +kernel
  obtain ⟨mg, hrun, hhistory⟩ := Transition.exists_run_of_any hany
  exact ⟨mg, hrun, of_decide_eq_true hhistory, (committed_serializable _ _ mg hrun).1⟩

/-- A transaction puts a key of `2 ^ 29` bytes. It commits, and the store has the empty key. -/
theorem long_key_not_committed :
    ∃ mg, Transition.run Manager.step (Manager.wrap ∅)
        [.newTransaction 0, .request 0 (.put (replicate (2 ^ 29) 0) [7]),
          .commit 0 true] = some mg ∧
      mg.history = [([.put (replicate (2 ^ 29) 0) [7]], [.done])] ∧
      AList.lookup [] mg.store = some [7] ∧ AList.lookup (replicate (2 ^ 29) 0) mg.store = none ∧
      ¬Serializes ∅ mg.history mg.store := by
  have hne : replicate (2 ^ 29) (0 : Fin 256) ≠ [] := by
    decide
  have hput := Writes.write_of_bitlen_eq_zero (Ptrie.bitlen_replicate 0) (some [7])
  have hpairs : Writes.pairs (.node [] 0 (some (some [7])) .nil .nil) [] [] =
    some [([], some [7])] := by
    decide +kernel
  generalize replicate (2 ^ 29) (0 : Fin 256) = key at hne hput ⊢
  let tx : Tx := { newTx 0 ∅ with
    writes := .node [] 0 (some (some [7])) .nil .nil, requests :=
      [.put key [7]], results := [.done] }
  let mg : Manager := { Manager.wrap ∅ with txs := AList.insert 0 tx (AList.insert 0 (newTx 0 ∅) ∅),
                                            events := [.begun 0 0] }
  have hrequest : ((Manager.wrap ∅).newTransaction 0).step (.request 0 (.put key [7])) =
    some mg := by
    have htx : AList.lookup 0 ((Manager.wrap ∅).newTransaction 0).txs = some (newTx 0 ∅) := rfl
    have hperform : (newTx 0 ∅).perform (.put key [7]) = some tx := by
      rw [Tx.perform, if_neg Bool.noConfusion, Tx.respond, newTx, hput]
      rfl
    rw [Manager.step, htx, bind_some, hperform]
    rfl
  have hcommit : mg.step (.commit 0 true) = some ((mg.close 0 tx .committedTxn).writeBatch
      [([], some [7])] ([.put key [7]], [.done])) := by
    change ((tx.writes.pairs [] []).bind _).map _ = _
    rw [hpairs]
    rfl
  have hlookup : AList.lookup key (Table.writeAll (∅ : Contents) [([], some [7])]) = none := by
    rw [writeAll_cons, writeAll_nil, lookup_write, if_neg hne]
    rfl
  refine ⟨_, run_cons_eq_some_iff.mpr ⟨_, rfl, run_cons_eq_some_iff.mpr ⟨mg, hrequest,
    run_cons_eq_some_iff.mpr ⟨_, hcommit, rfl⟩⟩⟩, rfl, rfl, hlookup, fun hserial ↦ ?_⟩
  have hkey : AList.lookup key ((∅ : Contents).write (key, some [7])) = _ := hserial.2 key
  rw [lookup_write, if_pos rfl] at hkey
  exact some_ne_none _ (hkey.trans hlookup)

end Vanadium.Transactions
